import GraphPattern.Formatter.WhiteSpace

/-!
The log of the formatter and the filter that selects the records shown. A filter is a list
of directives separated by commas, each of which sets a level: for everything, for the
targets with a given prefix, or for the records that have a given field. The most specific
directive that concerns a record decides, so the order of directives does not matter, except
that a directive replaces an earlier one for the same target and field.

A directive may also name a span of the program's run, or ask for the value of a span's
field. No record of the formatter stands inside a span, so such a directive admits nothing
and is dropped.

Not modelled are the filter that the environment may set, which takes precedence over the
option `--log-level`; the warning about a malformed directive, which is dropped here without
one; the record of level `trace` that the addition of a role player writes; and the time
stamp in front of a record.
-/

namespace GraphPattern.Formatter.Log

/-! ### Levels -/

/-- Log levels, from the least verbose to the most verbose. -/
inductive Level where
  | off
  | error
  | warn
  | info
  | debug
  | trace
  deriving DecidableEq

namespace Level

/-- The number of a level, which a filter may give instead of its name. -/
def rank : Level → Nat
  | off => 0
  | error => 1
  | warn => 2
  | info => 3
  | debug => 4
  | trace => 5

def all : List Level := [off, error, warn, info, debug, trace]

def name : Level → String
  | off => "off"
  | error => "error"
  | warn => "warn"
  | info => "info"
  | debug => "debug"
  | trace => "trace"

/-- Reads a decimal number, with an optional plus sign. -/
def number? (text : List Char) : Option Nat :=
  let digits := match text with
    | '+' :: rest => rest
    | _ => text
  if digits ≠ [] ∧ digits.all Char.isDigit then
    some (digits.foldl (fun n c => 10 * n + (c.toNat - '0'.toNat)) 0)
  else
    none

/-- Reads a level from its number, or from its name in any case. -/
def ofChars? (text : List Char) : Option Level :=
  match number? text with
  | some n => all.find? fun l => l.rank == n
  | none => all.find? fun l => l.name.toList == text.map Char.toLower

/-- Reads the level of a setting. An empty setting means `trace`. -/
def ofSetting? (text : List Char) : Option Level :=
  if text = [] then some trace else ofChars? text

end Level

/-! ### Records -/

/-- A log record: target, message and fields. All records of the formatter have the level
`debug`. -/
structure Record where
  target : String
  message : String
  fields : List (String × String)
  deriving DecidableEq

namespace Record

def level : Level := .debug

def text (r : Record) : String :=
  "DEBUG " ++ r.target ++ ": " ++ r.message ++
    String.join (r.fields.map fun (name, value) => " " ++ name ++ "=" ++ value)

/-- The names of the fields of a record. The message is a field as well. -/
def fieldNames (r : Record) : List String :=
  "message" :: r.fields.map Prod.fst

end Record

/-! ### Directives -/

/-- A directive: a condition on records and the level it sets for them. -/
structure Directive where
  target? : Option (List Char)
  field? : Option (List Char)
  level : Level
  deriving DecidableEq

namespace Directive

/-- Reads a directive without brackets: a level, or a target with its level. A target alone
means the level `trace`. -/
def ofPlain? (target rest : List Char) : Option Directive :=
  match rest with
  | _ :: setting => (Level.ofSetting? setting).map fun l => ⟨some target, none, l⟩
  | [] =>
    match Level.ofChars? target with
    | some l => some ⟨none, none, l⟩
    | none => some ⟨some target, none, .trace⟩

/-- Reads the level behind a closing bracket, where only white space may stand instead. -/
def levelBehind? (rest : List Char) : Option Level :=
  match rest with
  | '=' :: setting => Level.ofSetting? setting
  | _ => if rest.all isWhiteSpace then some .trace else none

/-- Reads a directive with brackets, from what follows the opening one: an empty span name
and a field in braces. -/
def ofBracketed? (target : List Char) (rest : List Char) : Option Directive :=
  match rest with
  | '{' :: rest =>
    match rest.span (· != '}') with
    | (field, '}' :: ']' :: rest) =>
      if field = [] ∨ '=' ∈ field then none
      else
        (levelBehind? rest).map fun l =>
          ⟨if target = [] then none else some target, some field, l⟩
    | _ => none
  | _ => none

/-- The first characters of directives: brackets and the characters of targets. Letters
beyond ASCII are left out, since no record has a target that begins with one. -/
def mayBegin (c : Char) : Bool :=
  c.isAlphanum || c == '-' || c == ':' || c == '_' || c == '['

def ofChars? (text : List Char) : Option Directive :=
  if (text.head?.map mayBegin).getD false then
    match text.span fun c => c != '=' && c != '[' with
    | (target, '[' :: rest) => ofBracketed? target rest
    | (target, rest) => ofPlain? target rest
  else
    none

def concerns (d : Directive) (r : Record) : Bool :=
  (match d.target? with
    | none => true
    | some target => target.isPrefixOf r.target.toList) &&
  match d.field? with
  | none => true
  | some field => r.fieldNames.any fun name => name.toList == field

/-- Whether `e` is at least as specific as `d`: a longer target goes before a
shorter one and before none, then a field before none, then the later of two
fields in the order of their names. -/
def yieldsTo (d e : Directive) : Bool :=
  let length (x : Directive) : Nat := match x.target? with
    | none => 0
    | some target => target.length + 1
  if length d = length e then
    match d.field?, e.field? with
    | none, _ => true
    | some _, none => false
    | some f, some g => decide (String.ofList f ≤ String.ofList g)
  else
    decide (length d < length e)

end Directive

/-! ### Filters -/

structure Filter where
  directives : List Directive
  deriving DecidableEq

namespace Filter

/-- Reads a filter. -/
def ofText (text : String) : Filter :=
  ⟨(text.splitOn ",").filterMap fun d => Directive.ofChars? d.toList⟩

/-- The most specific directive that concerns a record. -/
def deciding? (f : Filter) (r : Record) : Option Directive :=
  (f.directives.filter (·.concerns r)).foldl
    (fun best? d =>
      match best? with
      | none => some d
      | some best => if best.yieldsTo d then some d else some best)
    none

/-- Whether the filter shows a record. -/
def admits (f : Filter) (r : Record) : Bool :=
  match f.deciding? r with
  | none => false
  | some d => decide (Record.level.rank ≤ d.level.rank)

/-- The records that the filter shows. -/
def select (f : Filter) (rs : List Record) : List Record :=
  rs.filter f.admits

end Filter

end GraphPattern.Formatter.Log
