import GraphPattern.Variable

/-!
Tokens, the written units of the language, and terminals, which are what the
grammar sees of them: a token without its name or label.
-/

namespace GraphPattern

inductive Token where
  | matchWord
  | isaWord
  | typeWord
  | var (v : Variable)
  | label (name : String)
  | parenOpen
  | parenClose
  | comma
  | colon
  | semicolon
  deriving DecidableEq

namespace Token

/-- How a token is written. -/
def chars : Token → List Char
  | matchWord => matchSpelling
  | isaWord => Keyword.isa.chars
  | typeWord => Keyword.type.chars
  | var v => v.chars
  | label name => name.toList
  | parenOpen => Mark.parenOpen.chars
  | parenClose => Mark.parenClose.chars
  | comma => Mark.comma.chars
  | colon => Mark.colon.chars
  | semicolon => Mark.semicolon.chars

def text (t : Token) : String := String.ofList t.chars

/-- The token that a word stands for: a label, unless the word is reserved. -/
def ofWord (word : List Char) : Token :=
  if word = matchSpelling then matchWord
  else if word = Keyword.isa.chars then isaWord
  else if word = Keyword.type.chars then typeWord
  else label (String.ofList word)

/-- The token that a single punctuation character stands for. -/
def ofMark? (c : Char) : Option Token :=
  if [c] = Mark.parenOpen.chars then some parenOpen
  else if [c] = Mark.parenClose.chars then some parenClose
  else if [c] = Mark.comma.chars then some comma
  else if [c] = Mark.colon.chars then some colon
  else if [c] = Mark.semicolon.chars then some semicolon
  else none

/-- Punctuation is read as the token that is written so. -/
theorem chars_of_ofMark? {c : Char} {t : Token} (h : ofMark? c = some t) : t.chars = [c] := by
  unfold ofMark? at h
  repeat' split at h
  all_goals cases h
  all_goals exact (‹[c] = _›).symm

end Token

/-- The classes of tokens that the grammar tells apart. -/
inductive Terminal where
  | matchWord
  | isaWord
  | typeWord
  | anonymous
  | visible
  | label
  | parenOpen
  | parenClose
  | comma
  | colon
  | semicolon
  deriving DecidableEq

namespace Terminal

/-- Every terminal once, in the order in which messages list them. -/
def all : List Terminal :=
  [matchWord, isaWord, typeWord, anonymous, visible, label, parenOpen, parenClose, comma,
    colon, semicolon]

theorem mem_all (t : Terminal) : t ∈ all := by
  cases t <;> simp [all]

theorem nodup_all : all.Nodup := by
  decide

/-- How messages name a terminal: one that is always written alike by its
spelling, the others by what they are; all of them quoted. -/
def text : Terminal → String
  | matchWord => "\"match\""
  | isaWord => "\"isa\""
  | typeWord => "\"type\""
  | anonymous => "\"$_\""
  | visible => "\"var\""
  | label => "\"label\""
  | parenOpen => "\"(\""
  | parenClose => "\")\""
  | comma => "\",\""
  | colon => "\":\""
  | semicolon => "\";\""

/-- A token of the class. -/
def sample : Terminal → Token
  | matchWord => .matchWord
  | isaWord => .isaWord
  | typeWord => .typeWord
  | anonymous => .var .anonymous
  | visible => .var (.visible "x")
  | label => .label "x"
  | parenOpen => .parenOpen
  | parenClose => .parenClose
  | comma => .comma
  | colon => .colon
  | semicolon => .semicolon

end Terminal

/-- The class of a token. -/
def Token.terminal : Token → Terminal
  | .matchWord => .matchWord
  | .isaWord => .isaWord
  | .typeWord => .typeWord
  | .var .anonymous => .anonymous
  | .var (.visible _) => .visible
  | .label _ => .label
  | .parenOpen => .parenOpen
  | .parenClose => .parenClose
  | .comma => .comma
  | .colon => .colon
  | .semicolon => .semicolon

@[simp] theorem Terminal.terminal_sample (t : Terminal) : t.sample.terminal = t := by
  cases t <;> rfl

end GraphPattern
