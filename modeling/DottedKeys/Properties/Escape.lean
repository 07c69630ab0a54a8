import DottedKeys.Text

/-!
# Escapes

A backslash lends another meaning to what follows it: four letters name control characters, the
letter u takes four hexadecimal digits, and anything else stands for itself. A backslash at the very
end stands for nothing. The loop of `unescape` is a recursion here, and `trailingBackslashes` is
`_trailing_backslashes`.
-/

namespace DottedKeys.Properties

/-- The code point that opens an escape. -/
def isBackslash (c : CodePoint) : Bool :=
  c = '\\'

/-- How many backslashes a text ends in. -/
def trailingBackslashes (t : Text) : Nat :=
  (t.reverse.takeWhile isBackslash).length

/-- An escape by number without its four hexadecimal digits; `digits` is what stands in their
place. -/
structure Malformed where
  digits : Text
deriving DecidableEq

/-- What is reported of a malformed escape. -/
def Malformed.message (fault : Malformed) : Text :=
  "malformed \\uxxxx encoding: \\u" ++ fault.digits

/-- The value of a hexadecimal digit, which is an ASCII digit or one of twelve letters. -/
def hexValue? (c : CodePoint) : Option (Fin 16) :=
  if h : 0x30 ≤ c.val ∧ c.val ≤ 0x39 then some ⟨c.val - 0x30, by omega⟩
  else if h : 0x41 ≤ c.val ∧ c.val ≤ 0x46 then some ⟨c.val - 0x37, by omega⟩
  else if h : 0x61 ≤ c.val ∧ c.val ≤ 0x66 then some ⟨c.val - 0x57, by omega⟩
  else none

/-- The code point of four hexadecimal digits. -/
def ofDigits? (a b c d : CodePoint) : Option CodePoint := do
  let a ← hexValue? a
  let b ← hexValue? b
  let c ← hexValue? c
  let d ← hexValue? d
  return ⟨a * 4096 + b * 256 + c * 16 + d, by omega⟩

/-- What an escaped code point other than u stands for. -/
def control (c : CodePoint) : CodePoint :=
  if c = 't' then '\t'
  else if c = 'n' then '\n'
  else if c = 'r' then '\r'
  else if c = 'f' then '\x0c'
  else c

/-- The text that a raw key or value stands for. -/
def unescape : Text → Except Malformed Text
  | [] => .ok []
  | [c] => .ok (if isBackslash c then [] else [c])
  | c :: d :: rest =>
    if isBackslash c then
      if d = 'u' then
        match rest with
        | d₁ :: d₂ :: d₃ :: d₄ :: rest =>
          match ofDigits? d₁ d₂ d₃ d₄ with
          | some named => (unescape rest).map (named :: ·)
          | none => .error ⟨[d₁, d₂, d₃, d₄]⟩
        | digits => .error ⟨digits⟩
      else (unescape rest).map (control d :: ·)
    else (unescape (d :: rest)).map (c :: ·)

end DottedKeys.Properties
