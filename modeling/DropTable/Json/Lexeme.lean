import DropTable.Json
/-!
# JSON lexemes

The punctuation, strings, numbers and words of a JSON text.
-/

namespace DropTable.Json

inductive Lexeme where
  | openBrace
  | closeBrace
  | openBracket
  | closeBracket
  | comma
  | colon
  | atom (v : Value)
deriving Repr

def isSpace (c : Char) : Bool :=
  c == ' ' || c == '\t' || c == '\n' || c == '\r'

/-! ## Strings -/

def hexDigit? (c : Char) : Option Nat :=
  if '0' ≤ c ∧ c ≤ '9' then some (c.toNat - '0'.toNat)
  else if 'a' ≤ c ∧ c ≤ 'f' then some (c.toNat - 'a'.toNat + 10)
  else if 'A' ≤ c ∧ c ≤ 'F' then some (c.toNat - 'A'.toNat + 10)
  else none

def unit? (a b c d : Char) : Option Nat := do
  return (((← hexDigit? a) * 16 + (← hexDigit? b)) * 16 + (← hexDigit? c)) * 16 + (← hexDigit? d)

/-- The character that an escape of one letter names. -/
def escape? : Char → Option Char
  | '"' => some '"'
  | '\\' => some '\\'
  | '/' => some '/'
  | 'b' => some '\x08'
  | 'f' => some '\x0c'
  | 'n' => some '\n'
  | 'r' => some '\r'
  | 't' => some '\t'
  | _ => none

/-- Reads a string behind its opening quote. Control characters have to be escaped. -/
def readString? : List Char → Option (List Piece × List Char)
  | [] => none
  | '"' :: rest => some ([], rest)
  | '\\' :: 'u' :: a :: b :: c :: d :: rest => do
    let code ← unit? a b c d
    let (pieces, rest) ← readString? rest
    return (.unit code :: pieces, rest)
  | '\\' :: letter :: rest => do
    let c ← escape? letter
    let (pieces, rest) ← readString? rest
    return (.char c :: pieces, rest)
  | c :: rest =>
    if c.toNat < 0x20 then none
    else do
      let (pieces, rest) ← readString? rest
      return (.char c :: pieces, rest)

/-! ## Numbers -/

/-- One or more digits. -/
def readDigits? (cs : List Char) : Option (List Char × List Char) :=
  let digits := cs.takeWhile Char.isDigit
  if digits = [] then none else some (digits, cs.dropWhile Char.isDigit)

/-- A zero, or digits without a zero in front. -/
def readWhole? : List Char → Option (List Char × List Char)
  | '0' :: rest => some (['0'], rest)
  | cs => readDigits? cs

/-- A point and digits, or nothing. -/
def readFraction? : List Char → Option (List Char × List Char)
  | '.' :: rest => readDigits? rest
  | cs => some ([], cs)

/-- A mark, a sign and digits, or nothing. -/
def readExponent? : List Char → Option (Bool × List Char × List Char)
  | c :: rest =>
    if c = 'e' ∨ c = 'E' then
      match rest with
      | '-' :: rest => (readDigits? rest).map (true, ·)
      | '+' :: rest => (readDigits? rest).map (false, ·)
      | rest => (readDigits? rest).map (false, ·)
    else some (false, [], c :: rest)
  | [] => some (false, [], [])

def readNumber? (negative : Bool) (cs : List Char) : Option (Number × List Char) := do
  let (whole, cs) ← readWhole? cs
  let (fraction, cs) ← readFraction? cs
  let (exponentNegative, exponent, cs) ← readExponent? cs
  return ({ negative, whole, fraction, exponentNegative, exponent }, cs)

/-! ## Lengths -/

private theorem length_readString?_le {cs rest : List Char} {pieces : List Piece}
    (h : readString? cs = some (pieces, rest)) : rest.length ≤ cs.length := by
  fun_induction readString? cs generalizing pieces rest with
  | case1 => simp at h
  | case2 cs => simp_all
  | case3 a b c d cs ih =>
      simp only [bind, Option.bind_eq_some_iff, pure, Option.some.injEq, Prod.mk.injEq] at h
      obtain ⟨_, _, ⟨pieces, cs'⟩, hcs, rfl, rfl⟩ := h
      have := ih hcs
      simp only [List.length_cons]
      omega
  | case4 letter cs _ ih =>
      simp only [bind, Option.bind_eq_some_iff, pure, Option.some.injEq, Prod.mk.injEq] at h
      obtain ⟨_, _, ⟨pieces, cs'⟩, hcs, rfl, rfl⟩ := h
      have := ih hcs
      simp only [List.length_cons]
      omega
  | case5 => simp_all
  | case6 c cs _ _ _ _ ih =>
      simp only [bind, Option.bind_eq_some_iff, pure, Option.some.injEq, Prod.mk.injEq] at h
      obtain ⟨⟨pieces, cs'⟩, hcs, rfl, rfl⟩ := h
      have := ih hcs
      simp only [List.length_cons]
      omega

private theorem length_readDigits?_lt {cs digits rest : List Char}
    (h : readDigits? cs = some (digits, rest)) : rest.length < cs.length := by
  simp only [readDigits?] at h
  split at h
  · simp at h
  · rename_i hdigits
    simp only [Option.some.injEq, Prod.mk.injEq] at h
    obtain ⟨_, rfl⟩ := h
    have hlength :=
      congrArg List.length (List.takeWhile_append_dropWhile (p := Char.isDigit) (l := cs))
    have := List.length_pos_iff.mpr hdigits
    simp only [List.length_append] at hlength
    omega

private theorem length_readWhole?_lt {cs digits rest : List Char}
    (h : readWhole? cs = some (digits, rest)) : rest.length < cs.length := by
  unfold readWhole? at h
  split at h
  · simp only [Option.some.injEq, Prod.mk.injEq] at h
    obtain ⟨_, rfl⟩ := h
    simp
  · exact length_readDigits?_lt h

private theorem length_readFraction?_le {cs digits rest : List Char}
    (h : readFraction? cs = some (digits, rest)) : rest.length ≤ cs.length := by
  unfold readFraction? at h
  split at h
  · have := length_readDigits?_lt h
    simp only [List.length_cons]
    omega
  · simp_all

private theorem length_readExponent?_le {cs digits rest : List Char} {negative : Bool}
    (h : readExponent? cs = some (negative, digits, rest)) : rest.length ≤ cs.length := by
  unfold readExponent? at h
  split at h
  · split at h
    · split at h <;>
      · simp only [Option.map_eq_some_iff, Prod.mk.injEq] at h
        obtain ⟨⟨_, _⟩, hdigits, _, rfl, rfl⟩ := h
        have := length_readDigits?_lt hdigits
        simp only [List.length_cons] at *
        omega
    · simp_all
  · simp_all

private theorem length_readNumber?_lt {cs rest : List Char} {negative : Bool} {n : Number}
    (h : readNumber? negative cs = some (n, rest)) : rest.length < cs.length := by
  simp only [readNumber?, bind, Option.bind_eq_some_iff, pure, Option.some.injEq,
    Prod.mk.injEq] at h
  obtain ⟨⟨_, _⟩, hwhole, ⟨_, _⟩, hfraction, ⟨_, _, _⟩, hexponent, _, rfl⟩ := h
  exact Nat.lt_of_le_of_lt (length_readExponent?_le hexponent)
    (Nat.lt_of_le_of_lt (length_readFraction?_le hfraction) (length_readWhole?_lt hwhole))

/-! ## Texts -/

/-- Removes a word from the front. -/
def dropWord? (word cs : List Char) : Option (List Char) :=
  if word.isPrefixOf cs then some (cs.drop word.length) else none

/-- Reads one lexeme, with one character or more. -/
def readLexeme? : List Char → Option (Lexeme × List Char)
  | '\x7b' :: rest => some (.openBrace, rest)
  | '\x7d' :: rest => some (.closeBrace, rest)
  | '[' :: rest => some (.openBracket, rest)
  | ']' :: rest => some (.closeBracket, rest)
  | ',' :: rest => some (.comma, rest)
  | ':' :: rest => some (.colon, rest)
  | '"' :: rest => (readString? rest).map fun (pieces, rest) => (.atom (.string pieces), rest)
  | '-' :: rest => (readNumber? true rest).map fun (n, rest) => (.atom (.number n), rest)
  | 'n' :: rest => (dropWord? ['u', 'l', 'l'] rest).map (.atom .null, ·)
  | 't' :: rest => (dropWord? ['r', 'u', 'e'] rest).map (.atom (.bool true), ·)
  | 'f' :: rest => (dropWord? ['a', 'l', 's', 'e'] rest).map (.atom (.bool false), ·)
  | cs => (readNumber? false cs).map fun (n, rest) => (.atom (.number n), rest)

private theorem length_dropWord?_le {word cs rest : List Char} (h : dropWord? word cs = some rest) :
    rest.length ≤ cs.length := by
  unfold dropWord? at h
  split at h
  · simp only [Option.some.injEq] at h
    subst h
    simp
  · simp at h

private theorem length_readLexeme?_lt {cs rest : List Char} {l : Lexeme}
    (h : readLexeme? cs = some (l, rest)) : rest.length < cs.length := by
  unfold readLexeme? at h
  split at h <;>
    simp only [Option.some.injEq, Option.map_eq_some_iff, Prod.mk.injEq, Prod.exists] at h
  case h_7 =>
    obtain ⟨_, _, hstring, _, rfl⟩ := h
    have := length_readString?_le hstring
    simp only [List.length_cons]
    omega
  case h_8 =>
    obtain ⟨_, _, hnumber, _, rfl⟩ := h
    have := length_readNumber?_lt hnumber
    simp only [List.length_cons]
    omega
  case h_12 =>
    obtain ⟨_, _, hnumber, _, rfl⟩ := h
    exact length_readNumber?_lt hnumber
  case h_9 | h_10 | h_11 =>
    obtain ⟨_, hword, _, rfl⟩ := h
    have := length_dropWord?_le hword
    simp only [List.length_cons]
    omega
  all_goals
    obtain ⟨_, rfl⟩ := h
    simp

/-- The lexemes of a text, without the space around them. -/
def lexemes? (cs : List Char) : Option (List Lexeme) :=
  match cs with
  | [] => some []
  | c :: rest =>
    if isSpace c then lexemes? rest
    else
      match _h : readLexeme? (c :: rest) with
      | some (l, rest) => (lexemes? rest).map (l :: ·)
      | none => none
termination_by cs.length
decreasing_by
  · simp
  · exact length_readLexeme?_lt ‹_›

end DropTable.Json
