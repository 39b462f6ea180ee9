import GraphPattern.Proofs.Statement.Nesting
import Mathlib.Data.List.Infix
import Mathlib.Tactic.Choose

/-!
The walk as a preorder. `preorder` follows the recursion of the data: a statement, then the
preorders of its children. The walk is a loop with a stack. Its invariant is that the
visited statements, followed by the preorders of the statements on the stack from the top,
are the preorder of the initial statement. Each turn decreases the total size of the stack
by one, so the loop ends, and the visited statements are then the preorder.

Equal statements may occur at several places. Occurrences are told apart by their paths, and
the order of the list is the lexicographic order of paths.
-/

namespace GraphPattern

mutual

/-- The statement, followed by the preorders of its children. -/
def Statement.preorder : Statement → List Statement
  | ⟨v, ps⟩ => ⟨v, ps⟩ :: Property.preorderList ps

/-- The preorder of a property. Each player of a relation precedes its role, and a label has
no statements. -/
def Property.preorder : Property → List Statement
  | .relation players => RolePlayer.preorderList players
  | .isa t => t.preorder
  | .type _ => []

def RolePlayer.preorder : RolePlayer → List Statement
  | .plain player => player.preorder
  | .tagged role player => player.preorder ++ role.preorder

def Property.preorderList : List Property → List Statement
  | [] => []
  | p :: ps => p.preorder ++ Property.preorderList ps

def RolePlayer.preorderList : List RolePlayer → List Statement
  | [] => []
  | a :: as => a.preorder ++ RolePlayer.preorderList as

end

theorem RolePlayer.preorder_eq (a : RolePlayer) :
    a.preorder = a.statements.flatMap Statement.preorder := by
  cases a <;> simp [preorder, statements]

theorem RolePlayer.preorderList_eq (as : List RolePlayer) :
    preorderList as = (as.flatMap statements).flatMap Statement.preorder := by
  induction as with
  | nil => rfl
  | cons a as ih => rw [preorderList, a.preorder_eq, ih, List.flatMap_cons, List.flatMap_append]

theorem Property.preorder_eq (p : Property) :
    p.preorder = p.statements.flatMap Statement.preorder := by
  cases p with
  | relation players => exact RolePlayer.preorderList_eq players
  | isa t => simp [preorder, statements]
  | type label => rfl

theorem Property.preorderList_eq (ps : List Property) :
    preorderList ps = (ps.flatMap statements).flatMap Statement.preorder := by
  induction ps with
  | nil => rfl
  | cons p ps ih => rw [preorderList, p.preorder_eq, ih, List.flatMap_cons, List.flatMap_append]

namespace Statement

theorem preorder_eq (s : Statement) : s.preorder = s :: s.children.flatMap preorder := by
  obtain ⟨v, ps⟩ := s
  rw [preorder, Property.preorderList_eq, children]

theorem innerStatements_eq_preorder (s : Statement) : s.innerStatements = s.preorder := by
  induction s using child_induction with
  | step s ih => rw [innerStatements_eq, preorder_eq, List.flatMap_congr ih]

end Statement

/-! ### The loop -/

/-- The state of a walk: the visited statements in order, and the stack with its top at the
end. -/
structure Traversal where
  visited : List Statement
  stack : List Statement

namespace Statement

theorem totalSize_reverse (ss : List Statement) : totalSize ss.reverse = totalSize ss := by
  induction ss with
  | nil => rfl
  | cons s ss ih =>
      rw [List.reverse_cons, totalSize_append, ih, totalSize_cons, totalSize_cons, totalSize_nil]
      omega

end Statement

namespace Traversal

open Statement

/-- One turn of the loop: the top of the stack is visited, and its children are pushed so
that the first is on top. The result is `none` if the stack is empty. -/
def next? (t : Traversal) : Option Traversal :=
  t.stack.getLast?.map fun s => ⟨t.visited ++ [s], t.stack.dropLast ++ s.children.reverse⟩

/-- The given number of turns of the loop. -/
def after? : Nat → Traversal → Option Traversal
  | 0, t => some t
  | n + 1, t => t.next?.bind (after? n)

/-- The visited statements followed by the preorders of the stack from its top, which is the
invariant of the loop. -/
def total (t : Traversal) : List Statement := t.visited ++ t.stack.reverse.flatMap preorder

variable {t t' : Traversal}

/-- The inversion of a turn. -/
theorem next?_cases (t : Traversal) :
    t.stack = [] ∧ t.next? = none ∨ ∃ stack s, t.stack = stack ++ [s] ∧
      t.next? = some ⟨t.visited ++ [s], stack ++ s.children.reverse⟩ := by
  rcases List.eq_nil_or_concat t.stack with hnil | ⟨stack, s, hconcat⟩
  · exact .inl ⟨hnil, by rw [next?, hnil]; rfl⟩
  · rw [List.concat_eq_append] at hconcat
    exact .inr ⟨stack, s, hconcat, by simp [next?, hconcat]⟩

theorem exists_of_next? (h : t.next? = some t') : ∃ stack s, t.stack = stack ++ [s] ∧
    t' = ⟨t.visited ++ [s], stack ++ s.children.reverse⟩ := by
  rcases t.next?_cases with ⟨-, hnone⟩ | ⟨stack, s, hstack, hnext⟩
  · rw [hnone] at h
    cases h
  · rw [hnext] at h
    exact ⟨stack, s, hstack, (Option.some.inj h).symm⟩

/-- A turn preserves the invariant. -/
theorem total_of_next? (h : t.next? = some t') : t'.total = t.total := by
  obtain ⟨stack, s, hstack, rfl⟩ := exists_of_next? h
  simp [total, hstack, s.preorder_eq]

/-- A turn decreases the total size of the stack by one. -/
theorem totalSize_of_next? (h : t.next? = some t') :
    totalSize t'.stack + 1 = totalSize t.stack := by
  obtain ⟨stack, s, hstack, rfl⟩ := exists_of_next? h
  simp only [hstack, totalSize_append, totalSize_cons, totalSize_nil, totalSize_reverse,
    s.size_eq]
  omega

/-- The loop ends after as many turns as the total size of the stack. -/
theorem after?_totalSize (t : Traversal) :
    t.after? (totalSize t.stack) = some ⟨t.total, []⟩ := by
  -- Each turn decreases the total size, and it is zero only for the empty stack.
  induction hn : totalSize t.stack generalizing t with
  | zero =>
      rcases t.next?_cases with ⟨hstack, -⟩ | ⟨stack, s, hstack, -⟩
      · rw [after?, total, hstack, List.reverse_nil, List.flatMap_nil, List.append_nil, ← hstack]
      · have hs := s.size_eq
        simp only [hstack, totalSize_append, totalSize_cons, totalSize_nil] at hn
        omega
  | succ n ih =>
      rcases t.next?_cases with ⟨hstack, -⟩ | ⟨stack, s, hstack, hnext⟩
      · rw [hstack, totalSize_nil] at hn
        omega
      · have hsize := totalSize_of_next? hnext
        rw [after?, hnext, Option.bind_some, ih _ (by omega), total_of_next? hnext]

end Traversal

/-! ### Places -/

namespace Statement

/-- The statement at a path, which gives the number of a child at each level. -/
def node? : List Nat → Statement → Option Statement
  | [], s => some s
  | i :: place, s => s.children[i]?.bind (node? place)

/-- `nodes` lists the nodes of a statement at the paths `places`, each node once. -/
structure ListsNodes (s : Statement) (nodes : List Statement) (places : List (List Nat)) :
    Prop where
  nodes : places.map (node? · s) = nodes.map some
  complete : ∀ place, (node? place s).isSome → place ∈ places
  /-- Parents precede their children and children those to their right. In particular, paths
  are distinct. -/
  ordered : places.Pairwise (List.Lex (· < ·))

variable {s : Statement} {places : Statement → List (List Nat)}

theorem node?_cons {i : Nat} {c : Statement} (h : s.children[i]? = some c) (place : List Nat) :
    node? (i :: place) s = node? place c := by
  rw [node?, h, Option.bind_some]

theorem isSome_node?_cons_iff {i : Nat} {place : List Nat} :
    (node? (i :: place) s).isSome ↔ ∃ c, s.children[i]? = some c ∧ (node? place c).isSome := by
  rw [node?]
  cases s.children[i]? <;> simp

/-- The paths of the proper descendants, from the paths in each child. -/
def placesBelow (places : Statement → List (List Nat)) (s : Statement) : List (List Nat) :=
  s.children.zipIdx.flatMap fun x => (places x.1).map (x.2 :: ·)

theorem mem_placesBelow_iff {place : List Nat} :
    place ∈ s.placesBelow places ↔
      ∃ i c below, s.children[i]? = some c ∧ below ∈ places c ∧ place = i :: below := by
  simp only [placesBelow, List.mem_flatMap, List.mem_map, List.mem_zipIdx_iff_getElem?]
  constructor
  · rintro ⟨x, hx, below, hbelow, rfl⟩
    exact ⟨x.2, x.1, below, hx, hbelow, rfl⟩
  · rintro ⟨i, c, below, hc, hbelow, rfl⟩
    exact ⟨(c, i), hc, below, hbelow, rfl⟩

theorem map_node?_placesBelow
    (h : ∀ c ∈ s.children, (places c).map (node? · c) = c.preorder.map some) :
    (s.placesBelow places).map (node? · s) = (s.children.flatMap preorder).map some := by
  have hchildren : (s.children.flatMap preorder).map some =
      s.children.zipIdx.flatMap fun x => x.1.preorder.map some := by
    conv_lhs => rw [← List.zipIdx_map_fst 0 s.children]
    rw [List.flatMap_map, List.map_flatMap]
  rw [hchildren, placesBelow, List.map_flatMap]
  refine List.flatMap_congr fun x hx => ?_
  have hx : s.children[x.2]? = some x.1 := List.mem_zipIdx_iff_getElem?.mp hx
  rw [← h x.1 (List.mem_of_getElem? hx), List.map_map]
  exact List.map_congr_left fun place _ => node?_cons hx place

theorem pairwise_placesBelow
    (h : ∀ c ∈ s.children, (places c).Pairwise (List.Lex (· < ·))) :
    (s.placesBelow places).Pairwise (List.Lex (· < ·)) := by
  rw [placesBelow, List.pairwise_flatMap]
  constructor
  · -- Within a child the paths have the same first number.
    intro x hx
    have hx : s.children[x.2]? = some x.1 := List.mem_zipIdx_iff_getElem?.mp hx
    rw [List.pairwise_map]
    exact (h x.1 (List.mem_of_getElem? hx)).imp .cons
  · -- Paths in different children are ordered by their first numbers.
    have hnumbers : (s.children.zipIdx.map Prod.snd).Pairwise (· < ·) := by
      rw [List.zipIdx_map_snd]
      exact List.pairwise_lt_range' 1
    rw [List.pairwise_map] at hnumbers
    refine hnumbers.imp ?_
    intro x y hxy p hp q hq
    obtain ⟨below, -, rfl⟩ := List.mem_map.mp hp
    obtain ⟨below', -, rfl⟩ := List.mem_map.mp hq
    exact .rel hxy

theorem exists_listsNodes (s : Statement) : ∃ places, s.ListsNodes s.preorder places := by
  induction s using child_induction with
  | step s ih =>
      choose! places hplaces using ih
      refine ⟨[] :: s.placesBelow places, ?_, ?_, ?_⟩
      · rw [preorder_eq, List.map_cons, List.map_cons,
          map_node?_placesBelow fun c hc => (hplaces c hc).nodes]
        rfl
      · intro place hplace
        cases place with
        | nil => exact List.mem_cons_self
        | cons i place =>
            obtain ⟨c, hc, hbelow⟩ := isSome_node?_cons_iff.mp hplace
            have hmem := (hplaces c (List.mem_of_getElem? hc)).complete place hbelow
            exact List.mem_cons_of_mem _ (mem_placesBelow_iff.mpr ⟨i, c, place, hc, hmem, rfl⟩)
      · rw [List.pairwise_cons]
        refine ⟨fun place hplace => ?_, pairwise_placesBelow fun c hc => (hplaces c hc).ordered⟩
        obtain ⟨i, c, below, -, -, rfl⟩ := mem_placesBelow_iff.mp hplace
        exact .nil

/-- The loop of a walk ends after one turn for each node, and the list of visited statements
is the preorder: the statement followed by the preorders of its children, each node listed
once, parents before children and children from left to right. -/
theorem walk_lists_preorder :
    ∀ s : Statement,
      s.innerStatements = s.preorder ∧
      s.preorder = s :: s.children.flatMap preorder ∧
      (Traversal.after? s.size ⟨[], [s]⟩ = some ⟨s.innerStatements, []⟩ ∧
        Traversal.next? ⟨s.innerStatements, []⟩ = none) ∧
      ∃ places, s.ListsNodes s.preorder places := by
  intro s
  have hloop := Traversal.after?_totalSize ⟨[], [s]⟩
  simp only [totalSize_cons, totalSize_nil, Nat.add_zero, Traversal.total, List.nil_append,
    List.reverse_singleton, List.flatMap_singleton, ← s.innerStatements_eq_preorder] at hloop
  exact ⟨s.innerStatements_eq_preorder, s.preorder_eq, ⟨hloop, rfl⟩, s.exists_listsNodes⟩

end Statement

end GraphPattern
