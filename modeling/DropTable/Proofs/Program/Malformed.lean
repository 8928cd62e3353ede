import DropTable.Numeral.Binary64
import DropTable.Proofs.Formula.Derivable
import DropTable.Proofs.Program.Conversion
import DropTable.Proofs.Program.Rearrangement
import DropTable.Scalar.Binary64
/-!
# What evaluation finds wrong with a formula

The check lets a formula through when operators or operands are missing between neighbours.  As many
operands as operators and one are left over, apart from what is missing, so that the evaluation
notices that something is missing unless as many operators are missing as operands.
-/

namespace DropTable

open Formula (Derivable missingOperators missingOperands lacksOperator lacksOperand countNeighbours)
open Token (operands operators operands_append operators_append)

namespace Token

variable {α : Type}

/-- How many of the operators stand between two operands. -/
def binaryCount (tokens : List (Token α)) : Nat :=
  ((operators tokens).filter (!·.isParen)).length

private theorem binaryCount_append (left right : List (Token α)) :
    binaryCount (left ++ right) = binaryCount left + binaryCount right := by
  rw [binaryCount, operators_append, List.filter_append, List.length_append]
  rfl

/-- How many operands a token waits for: an operator, or a parenthesis that closes a group, stands
behind one. -/
def awaited (t : Token α) : Nat :=
  if t.begins then 0 else 1

/-- How many operands a token leaves. -/
def provided (t : Token α) : Nat :=
  if t.ends then 1 else 0

private theorem awaited_add_length (t : Token α) :
    t.awaited + (operands [t]).length = binaryCount [t] + t.provided := by
  cases t with
  | operator op => cases op <;> rfl
  | _ => rfl

private theorem provided_add_lacks (t u : Token α) :
    t.provided + (if lacksOperand t u then 1 else 0) =
      u.awaited + if lacksOperator t u then 1 else 0 := by
  unfold provided awaited lacksOperand lacksOperator
  cases t.ends <;> cases u.begins <;> rfl

private theorem awaited_add_operands (t : Token α) (tokens : List (Token α)) :
    ∀ last ∈ (t :: tokens).getLast?,
      t.awaited + (operands (t :: tokens)).length + missingOperands (t :: tokens) =
        binaryCount (t :: tokens) + missingOperators (t :: tokens) + last.provided := by
  induction tokens generalizing t with
  | nil =>
      rintro last ⟨⟩
      have hone := t.awaited_add_length
      simpa [missingOperands, missingOperators, countNeighbours] using hone
  | cons u rest ih =>
      intro last hlast
      have hone := t.awaited_add_length
      -- What is provided by one token is awaited by the next, but for what is missing.
      have hpair := t.provided_add_lacks u
      have hrest := ih u last (by simpa using hlast)
      have hoperands : (operands (t :: u :: rest)).length =
          (operands [t]).length + (operands (u :: rest)).length := by
        rw [← List.length_append, ← operands_append, List.singleton_append]
      have hbinary := binaryCount_append [t] (u :: rest)
      rw [List.singleton_append] at hbinary
      rw [hoperands, hbinary, missingOperands, missingOperators, countNeighbours, countNeighbours]
      unfold missingOperands missingOperators at hrest
      omega

end Token

private theorem Formula.Accepted.length_operands {α : Type} {tokens : List (Token α)}
    (h : Accepted tokens) :
    (operands tokens).length + missingOperands tokens =
      Token.binaryCount tokens + missingOperators tokens + 1 := by
  obtain ⟨first, hfirst, hbegins⟩ := h.begins
  obtain ⟨last, hlast, hends⟩ := h.ends
  cases tokens with
  | nil => contradiction
  | cons t tokens =>
      obtain rfl : t = first := Option.some.inj hfirst
      have hcount := Token.awaited_add_operands t tokens last hlast
      simpa [Token.awaited, Token.provided, hbegins, hends] using hcount

namespace Program

variable {α : Type} [Scalar α] [Numeral α]

/-- What the evaluation of a program tells about the formula that it is made of, if variables
without a value count as zero. -/
structure Judges (bindings : Bindings α) (tokens : List (Token α)) (p : Program α) : Prop where
  value : ∀ value, p.evaluate .zero bindings = .ok value →
    missingOperators tokens = missingOperands tokens ∧
      (Derivable tokens ↔ missingOperators tokens = 0)
  derivable : Derivable tokens → ∃ value, p.evaluate .zero bindings = .ok value
  fault : ∀ fault, p.evaluate .zero bindings = .error fault →
    (∃ op, fault = .notEnoughOperands op) ∨
      ∃ count, fault = .malformedExpression p.text (.leftoverOperands count)

/-- The evaluation finds a fault in whatever the check lets through and the grammar does not derive,
unless as many operators as operands are missing. -/
theorem judges_of_compile {text : String} {p : Program α} (h : compile text = .ok p)
    (bindings : Bindings α) : Judges bindings (Token.ofText text) p := by
  obtain ⟨haccepted, rfl⟩ := compile_eq_ok_iff.1 h
  have hparens := (isParen_of_balanced haccepted.balanced).2
  refine ⟨?_, ?_, ?_⟩
  · intro value hvalue
    have hlength := length_operands_of_value hparens hvalue
    rw [operands_ofFormula, (perm_operators_ofFormula haccepted.balanced).length_eq,
      ← Token.binaryCount] at hlength
    have hcount := haccepted.length_operands
    have hmissing : missingOperators (Token.ofText text : List (Token α)) =
        missingOperands (Token.ofText text : List (Token α)) := by
      omega
    refine ⟨hmissing, ?_⟩
    rw [Formula.derivable_iff, ← hmissing]
    exact ⟨fun hderived => hderived.2.1, fun hzero => ⟨haccepted, hzero, hzero⟩⟩
  · intro hderivable
    obtain ⟨d, hd⟩ := Formula.derivable_iff_exists.1 hderivable
    have hpostorder := tokens_ofFormula d
    rw [hd] at hpostorder
    exact ⟨_, evaluate_of_postorder hpostorder fun hstrict => by contradiction⟩
  · intro fault hfault
    refine (fault_cases hparens hfault).imp_left ?_
    rintro (⟨op⟩ | ⟨name, hstrict⟩)
    · exact ⟨op, rfl⟩
    · contradiction

/-- Two groups side by side, which is told by what is left over. -/
theorem judges_of_compile_groups :
    ∃ p : Program Float, compile "(x)(-y ^ x)" = .ok p ∧
      missingOperators (Token.ofText "(x)(-y ^ x)" : List (Token Float)) = 1 ∧
      missingOperands (Token.ofText "(x)(-y ^ x)" : List (Token Float)) = 0 ∧
      Judges ∅ (Token.ofText "(x)(-y ^ x)") p := by
  have hcompile : compile "(x)(-y ^ x)" = .ok (⟨[.identifier "x" false, .identifier "y" true,
      .identifier "x" false, .operator .power]⟩ : Program Float) := rfl
  exact ⟨_, hcompile, rfl, rfl, judges_of_compile hcompile ∅⟩

/-- Two groups side by side, where the second lacks an operand: its operator takes the first group
for its operand. -/
theorem evaluate_joined_groups :
    ∃ p : Program Float, ∃ value, compile "(3)(1+)" = .ok p ∧ p.evaluate .zero ∅ = .ok value ∧
      (value == 4) = true ∧ ¬Derivable (Token.ofText "(3)(1+)" : List (Token Float)) := by
  have hmissing : missingOperators (Token.ofText "(3)(1+)" : List (Token Float)) = 1 := rfl
  obtain ⟨p, hp⟩ : ∃ p : Program Float, compile "(3)(1+)" = .ok p := exists_of_isOk rfl
  have hfour : ((ofFormula (Token.ofText "(3)(1+)" : List (Token Float))).evaluate .zero ∅).map
      (· == 4) = .ok true := by decide +kernel
  obtain ⟨value, hvalue, hfour⟩ := exists_of_map_eq_ok hfour
  refine ⟨p, value, hp, ?_, hfour, ?_⟩
  · rw [← (compile_eq_ok_iff.1 hp).2]
    exact hvalue
  · intro hderivable
    have hzero := (Formula.derivable_iff.1 hderivable).2.1
    rw [hmissing] at hzero
    contradiction

end Program

end DropTable
