import DropTable.Program.Evaluation
import DropTable.Proofs.Formula.Grammar
/-!
# Running programs

What a run of a program depends on, and what it computes on the postorder of an expression.
-/

namespace DropTable

private theorem Bindings.notMem_of_getElem? {α : Type} {bindings : Bindings α} {name : String}
    (h : bindings[name]? = none) : name ∉ bindings := by
  rw [Std.ExtTreeMap.mem_iff_isSome_getElem?, h]
  simp

namespace Program

variable {α : Type}

theorem references_iff {p : Program α} {name : String} :
    p.references name = true ↔ ∃ t ∈ p.tokens, t.name? = some name := by
  simp [references, variableNames]

/-! ## Values of variables -/

variable [Scalar α]

theorem lookup_eq {missing : MissingVariable} {bindings : Bindings α} {name : String}
    (h : missing = .fail → name ∈ bindings) :
    lookup missing bindings name = .ok (bindings.getD name 0) := by
  rw [Std.ExtTreeMap.getD_eq_getD_getElem?]
  unfold lookup
  cases hvalue : bindings[name]? with
  | some value => rfl
  | none =>
      cases missing with
      | zero => rfl
      | fail => exact absurd (h rfl) (Bindings.notMem_of_getElem? hvalue)

private theorem lookup_mono {missing : MissingVariable} {b b' : Bindings α}
    (h : ∀ name, name ∈ b → name ∈ b') {name : String} {value : α}
    (hvalue : lookup missing b name = .ok value) :
    ∃ value', lookup missing b' name = .ok value' := by
  unfold lookup at hvalue ⊢
  cases hnew : b'[name]? with
  | some value' => exact ⟨value', rfl⟩
  | none =>
      have hold : b[name]? = none :=
        Std.ExtTreeMap.getElem?_eq_none fun hmem => Bindings.notMem_of_getElem? hnew (h name hmem)
      rw [hold] at hvalue
      cases missing with
      | zero => exact ⟨0, rfl⟩
      | fail => cases hvalue

/-! ## What a run depends on

Only the variables that a program refers to matter, and of the values on the stack only their number
decides whether it goes on. -/

variable [Numeral α]

private theorem step_congr (p : Program α) (missing : MissingVariable) {b b' : Bindings α}
    {t : Token α} (h : ∀ name, t.name? = some name → b[name]? = b'[name]?) (stack : List α) :
    p.step missing b stack t = p.step missing b' stack t := by
  cases t with
  | number value => rfl
  | operator op => rfl
  | identifier name negated =>
      have hname : b[name]? = b'[name]? := h name rfl
      simp only [step, lookup, hname]

private theorem foldlM_step_congr (p : Program α) (missing : MissingVariable) {b b' : Bindings α}
    {tokens : List (Token α)}
    (h : ∀ t ∈ tokens, ∀ name, t.name? = some name → b[name]? = b'[name]?) (stack : List α) :
    tokens.foldlM (p.step missing b) stack = tokens.foldlM (p.step missing b') stack := by
  induction tokens generalizing stack with
  | nil => rfl
  | cons t tokens ih =>
      have hstep : p.step missing b stack t = p.step missing b' stack t :=
        p.step_congr missing (h t (by simp)) stack
      rw [List.foldlM_cons, List.foldlM_cons, hstep]
      congr 1
      funext stack'
      exact ih (fun t ht => h t (by simp [ht])) stack'

theorem evaluate_congr {p : Program α} (missing : MissingVariable) {b b' : Bindings α}
    (h : ∀ name, p.references name = true → b[name]? = b'[name]?) :
    p.evaluate missing b = p.evaluate missing b' := by
  have hrun : p.tokens.foldlM (p.step missing b) [] = p.tokens.foldlM (p.step missing b') [] := by
    apply foldlM_step_congr
    intro t ht name hname
    exact h name (references_iff.2 ⟨t, ht, hname⟩)
  rw [evaluate, evaluate, hrun]

private theorem step_mono (p : Program α) {missing : MissingVariable} {b b' : Bindings α}
    (h : ∀ name, name ∈ b → name ∈ b') {stack stack' next : List α} {t : Token α}
    (hlength : stack'.length = stack.length) (hstep : p.step missing b stack t = .ok next) :
    ∃ next', p.step missing b' stack' t = .ok next' ∧ next'.length = next.length := by
  cases t with
  | number value =>
      cases hstep
      exact ⟨value :: stack', rfl, by simp [hlength]⟩
  | identifier name negated =>
      cases hvalue : lookup missing b name with
      | error fault => simp [step, hvalue, Except.map] at hstep
      | ok value =>
          obtain ⟨value', hvalue'⟩ := lookup_mono h hvalue
          simp only [step, hvalue, hvalue', Except.map, Except.ok.injEq] at hstep ⊢
          subst hstep
          exact ⟨_, rfl, by simp [hlength]⟩
  | operator op =>
      match stack, stack', hlength, hstep with
      | b :: a :: rest, b' :: a' :: rest', hlength, hstep =>
          cases op <;> cases hstep <;> exact ⟨_, rfl, by simpa using hlength⟩

private theorem foldlM_step_mono (p : Program α) {missing : MissingVariable} {b b' : Bindings α}
    (h : ∀ name, name ∈ b → name ∈ b') {tokens : List (Token α)} {stack stack' final : List α}
    (hlength : stack'.length = stack.length)
    (hfinal : tokens.foldlM (p.step missing b) stack = .ok final) :
    ∃ final', tokens.foldlM (p.step missing b') stack' = .ok final' ∧
      final'.length = final.length := by
  induction tokens generalizing stack stack' with
  | nil =>
      cases hfinal
      exact ⟨stack', rfl, hlength⟩
  | cons t tokens ih =>
      rw [List.foldlM_cons] at hfinal ⊢
      cases hstep : p.step missing b stack t with
      | error fault => simp [hstep, bind, Except.bind] at hfinal
      | ok next =>
          obtain ⟨next', hstep', hnext⟩ := step_mono p h hlength hstep
          rw [hstep] at hfinal
          rw [hstep']
          exact ih hnext hfinal

/-- A program that has a value keeps having one when more variables have values, whatever the values
are. -/
theorem evaluate_mono {p : Program α} {missing : MissingVariable} {b b' : Bindings α}
    (h : ∀ name, name ∈ b → name ∈ b') {value : α} (hvalue : p.evaluate missing b = .ok value) :
    ∃ value', p.evaluate missing b' = .ok value' := by
  unfold evaluate at hvalue ⊢
  cases hfinal : p.tokens.foldlM (p.step missing b) [] with
  | error fault => simp [hfinal, bind, Except.bind] at hvalue
  | ok final =>
      have hempty : ([] : List α).length = ([] : List α).length := rfl
      obtain ⟨final', hfinal', hlength⟩ := p.foldlM_step_mono h hempty hfinal
      rw [hfinal] at hvalue
      rw [hfinal']
      match final, final', hlength, hvalue with
      | [_], [value'], _, _ => exact ⟨value', rfl⟩

/-! ## Postorder -/

private theorem foldlM_step_postorder (p : Program α) {missing : MissingVariable}
    {bindings : Bindings α}
    (e : Expression α) (h : missing = .fail → ∀ name ∈ e.names, name ∈ bindings)
    (stack : List α) :
    e.postorder.foldlM (p.step missing bindings) stack = .ok (e.value bindings :: stack) := by
  induction e generalizing stack with
  | number value => rfl
  | identifier name negated =>
      have hname : lookup missing bindings name = .ok (bindings.getD name 0) :=
        lookup_eq (fun hfail => h hfail name (by simp [Expression.names]))
      simp [Expression.postorder, step, hname, Except.map, Expression.value]
  | operation op left right ihl ihr =>
      have hleft := ihl (fun hfail name hname => h hfail name (by simp [Expression.names, hname]))
      have hright := ihr (fun hfail name hname => h hfail name (by simp [Expression.names, hname]))
      rw [Expression.postorder, List.foldlM_append, List.foldlM_append, hleft]
      show (right.postorder.foldlM (p.step missing bindings) _ >>= fun stack =>
        [Token.operator op.val].foldlM (p.step missing bindings) stack) = _
      rw [hright]
      simp [bind, Except.bind, step, Expression.value, pure, Except.pure]

theorem evaluate_of_postorder {p : Program α} {e : Expression α} (hp : p.tokens = e.postorder)
    {missing : MissingVariable} {bindings : Bindings α}
    (h : missing = .fail → ∀ name ∈ e.names, name ∈ bindings) :
    p.evaluate missing bindings = .ok (e.value bindings) := by
  rw [evaluate, hp, foldlM_step_postorder p e h]
  rfl

end Program

end DropTable
