import GraphPattern.Statement.Basic

/-!
Equality of statements. Statements, properties and role players contain lists of
each other, so their equality is decided by one recursion over all of them; what
is compared is the whole value, the order of properties and players included.
-/

namespace GraphPattern

mutual

def Statement.decEq : (s t : Statement) → Decidable (s = t)
  | ⟨v, ps⟩, ⟨w, qs⟩ =>
    if hv : v = w then
      match Property.decEqList ps qs with
      | isTrue hp => isTrue (by rw [hv, hp])
      | isFalse hp => isFalse fun e => hp (Statement.mk.inj e).2
    else isFalse fun e => hv (Statement.mk.inj e).1

def Property.decEq : (p q : Property) → Decidable (p = q)
  | .relation ps, .relation qs =>
    match RolePlayer.decEqList ps qs with
    | isTrue h => isTrue (by rw [h])
    | isFalse h => isFalse fun e => h (Property.relation.inj e)
  | .isa s, .isa t =>
    match Statement.decEq s t with
    | isTrue h => isTrue (by rw [h])
    | isFalse h => isFalse fun e => h (Property.isa.inj e)
  | .type l, .type m =>
    if h : l = m then isTrue (by rw [h]) else isFalse fun e => h (Property.type.inj e)
  | .relation _, .isa _ => isFalse nofun
  | .relation _, .type _ => isFalse nofun
  | .isa _, .relation _ => isFalse nofun
  | .isa _, .type _ => isFalse nofun
  | .type _, .relation _ => isFalse nofun
  | .type _, .isa _ => isFalse nofun

def RolePlayer.decEq : (a b : RolePlayer) → Decidable (a = b)
  | .plain s, .plain t =>
    match Statement.decEq s t with
    | isTrue h => isTrue (by rw [h])
    | isFalse h => isFalse fun e => h (RolePlayer.plain.inj e)
  | .tagged r s, .tagged q t =>
    match Statement.decEq r q, Statement.decEq s t with
    | isTrue hr, isTrue hs => isTrue (by rw [hr, hs])
    | isFalse hr, _ => isFalse fun e => hr (RolePlayer.tagged.inj e).1
    | _, isFalse hs => isFalse fun e => hs (RolePlayer.tagged.inj e).2
  | .plain _, .tagged _ _ => isFalse nofun
  | .tagged _ _, .plain _ => isFalse nofun

def Property.decEqList : (ps qs : List Property) → Decidable (ps = qs)
  | [], [] => isTrue rfl
  | p :: ps, q :: qs =>
    match Property.decEq p q, Property.decEqList ps qs with
    | isTrue hp, isTrue hs => isTrue (by rw [hp, hs])
    | isFalse hp, _ => isFalse fun e => hp (List.cons.inj e).1
    | _, isFalse hs => isFalse fun e => hs (List.cons.inj e).2
  | [], _ :: _ => isFalse nofun
  | _ :: _, [] => isFalse nofun

def RolePlayer.decEqList : (as bs : List RolePlayer) → Decidable (as = bs)
  | [], [] => isTrue rfl
  | a :: as, b :: bs =>
    match RolePlayer.decEq a b, RolePlayer.decEqList as bs with
    | isTrue ha, isTrue hs => isTrue (by rw [ha, hs])
    | isFalse ha, _ => isFalse fun e => ha (List.cons.inj e).1
    | _, isFalse hs => isFalse fun e => hs (List.cons.inj e).2
  | [], _ :: _ => isFalse nofun
  | _ :: _, [] => isFalse nofun

end

instance : DecidableEq Statement := Statement.decEq

instance : DecidableEq Property := Property.decEq

instance : DecidableEq RolePlayer := RolePlayer.decEq

deriving instance DecidableEq for Relation

end GraphPattern
