import Eligibility.Rule.Printer
import Eligibility.Text.Blank
import Eligibility.Text.Digit
/-!
# Tokens of rule texts

**Classes.**  Quoted texts, back-quoted names, numbers, comparison signs,
punctuation and words; blanks separate them and are dropped.

**Choice.**  At each place the first class in this order that fits is taken, and
as much of the text as it allows.  A back-quoted name may hold doubled back
quotes; when no single back quote closes it, its last doubled one does.

**Functions.**
* `Token.split`: the tokens of a text, or the place that fits no class.
-/

namespace Eligibility
namespace Rule

/-- The classes of tokens. -/
inductive TokenClass where
  | quoted
  | ticked
  | number
  | sign
  | mark
  | word
  deriving DecidableEq

/-- A token: its class, its text and the place where it starts. -/
structure Token where
  kind : TokenClass
  text : List Char
  position : Nat
  deriving DecidableEq

namespace Token

/-- A piece of a text, and what follows it. -/
abbrev Piece := List Char × List Char

/-- A piece with characters put before it. -/
def before (cs : List Char) (p : Piece) : Piece := (cs ++ p.1, p.2)

/-- A quoted text behind its opening quote, up to the closing one. -/
def quotedBody : List Char → Option Piece
  | [] => none
  | '"' :: r => some (['"'], r)
  | ['\\'] => none
  | '\\' :: c :: r => if c = '\n' then none else (quotedBody r).map (before ['\\', c])
  | c :: r => (quotedBody r).map (before [c])

/-- A back-quoted name behind its opening quote, up to the closing one. -/
def tickedBody : List Char → Option Piece
  | [] => none
  | '`' :: '`' :: r =>
      match tickedBody r with
      | some p => some (before ['`', '`'] p)
      | none => some (['`'], '`' :: r)
  | '`' :: r => some (['`'], r)
  | c :: r => (tickedBody r).map (before [c])

/-- The decimal digits at the head of a text. -/
def digitRun (cs : List Char) : Piece :=
  (cs.takeWhile Text.isDecimalDigit, cs.dropWhile Text.isDecimalDigit)

/-- Digits with at most one point among or around them. -/
def mantissa (cs : List Char) : Option Piece :=
  let whole := digitRun cs
  match whole.2 with
  | '.' :: r =>
      let part := digitRun r
      if whole.1.isEmpty && part.1.isEmpty then none
      else some (whole.1 ++ '.' :: part.1, part.2)
  | _ => if whole.1.isEmpty then none else some whole

/-- An exponent, if one follows. -/
def exponent (cs : List Char) : Piece :=
  match cs with
  | [] => ([], cs)
  | c :: r =>
      if c = 'e' ∨ c = 'E' then
        let signed : Piece :=
          match r with
          | '+' :: s => (['+'], s)
          | '-' :: s => (['-'], s)
          | s => ([], s)
        let ds := digitRun signed.2
        if ds.1.isEmpty then ([], cs) else (c :: (signed.1 ++ ds.1), ds.2)
      else ([], cs)

/-- A number without its sign. -/
def unsigned (cs : List Char) : Option Piece :=
  (mantissa cs).map fun m => before m.1 (exponent m.2)

/-- A number at the head of a text. -/
def numberPiece (cs : List Char) : Option Piece :=
  match cs with
  | '-' :: r => (unsigned r).map (before ['-'])
  | _ => unsigned cs

/-- A comparison sign at the head of a text. -/
def signPiece : List Char → Option Piece
  | '=' :: '=' :: r => some (['=', '='], r)
  | '!' :: '=' :: r => some (['!', '='], r)
  | '<' :: '=' :: r => some (['<', '='], r)
  | '>' :: '=' :: r => some (['>', '='], r)
  | '<' :: r => some (['<'], r)
  | '>' :: r => some (['>'], r)
  | _ => none

/-- The marks. -/
def marks : List Char := ['(', ')', ',', '{', '}', '[', ']', '=']

/-- A word at the head of a text. -/
def wordPiece : List Char → Option Piece
  | [] => none
  | c :: r =>
      if startsIdentifier c then
        some (c :: r.takeWhile continuesIdentifier, r.dropWhile continuesIdentifier)
      else none

/-- The token at the head of a text that does not begin with a blank, and what follows it. -/
def lex (cs : List Char) : Option (TokenClass × Piece) :=
  match cs with
  | [] => none
  | c :: r =>
      if c = '"' then (quotedBody r).map fun p => (.quoted, before ['"'] p)
      else if c = '`' then (tickedBody r).map fun p => (.ticked, before ['`'] p)
      else
        match numberPiece cs with
        | some p => some (.number, p)
        | none =>
            match signPiece cs with
            | some p => some (.sign, p)
            | none =>
                if marks.contains c then some (.mark, ([c], r))
                else (wordPiece cs).map fun p => (.word, p)

/-- The tokens of a text from a place on, or the first place that fits no class. -/
def splitFrom : Nat → Nat → List Char → Except (Nat × Char) (List Token)
  | _, _, [] => .ok []
  | 0, position, c :: _ => .error (position, c)
  | fuel + 1, position, c :: r =>
      if Text.isBlank c then splitFrom fuel (position + 1) r
      else
        match lex (c :: r) with
        | none => .error (position, c)
        | some (kind, t, rest) =>
            (splitFrom fuel (position + t.length) rest).map (⟨kind, t, position⟩ :: ·)

/-- The tokens of a text, or the first place that fits no class. -/
def split (cs : List Char) : Except (Nat × Char) (List Token) := splitFrom cs.length 0 cs

end Token
end Rule
end Eligibility
