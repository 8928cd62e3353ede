import DropTable.Numeral.Binary64
import DropTable.Proofs.Program.Conversion
import DropTable.Scalar.Binary64
/-!
# What stops a run first

How a run ends can be told without running it.  Counting operands and operators from the left finds
the first operator that comes too early, and under the strict policy the first variable without a
value may come before it.  No value enters into the count, so that none decides whether there is a
result.
-/

namespace DropTable.Program

open Token (operands operators operands_append operators_append)

variable {α : Type}

/-- How many values there are after tokens: one more for each operand, and one less for each
operator. -/
def depth (tokens : List (Token α)) : Int :=
  (operands tokens).length - (operators tokens).length

/-- A run cannot go past a token, given the tokens before it and which variables have values. -/
inductive Stops (missing : MissingVariable) (bound : String → Prop) (before : List (Token α)) :
    Token α → Fault → Prop
  | operand {op : Operator} (hdepth : depth before < 2) :
      Stops missing bound before (.operator op) (.notEnoughOperands op)
  | binding {name : String} {negated : Bool} (hstrict : missing = .fail) (hname : ¬bound name) :
      Stops missing bound before (.identifier name negated) (.variableNotDefined name)

/-- The first token that a run cannot go past, with its fault. -/
def FirstStop (missing : MissingVariable) (bound : String → Prop) (tokens : List (Token α))
    (fault : Fault) : Prop :=
  ∃ position t, tokens[position]? = some t ∧
    Stops missing bound (tokens.take position) t fault ∧
    ∀ earlier < position, ∀ u, tokens[earlier]? = some u →
      ∀ other, ¬Stops missing bound (tokens.take earlier) u other

/-- How the evaluation of a program ends, its value left out. -/
inductive Ends [Numeral α] (missing : MissingVariable) (bound : String → Prop) (p : Program α) :
    Except Fault Unit → Prop
  | stopped {fault : Fault} (hstop : FirstStop missing bound p.tokens fault) :
      Ends missing bound p (.error fault)
  | leftover {count : Nat} (hruns : ∀ fault, ¬FirstStop missing bound p.tokens fault)
      (hcount : depth p.tokens = count) (hne : count ≠ 1) :
      Ends missing bound p (.error (.malformedExpression p.text (.leftoverOperands count)))
  | value (hruns : ∀ fault, ¬FirstStop missing bound p.tokens fault)
      (hcount : depth p.tokens = 1) : Ends missing bound p (.ok ())

/-! ## One end -/

private theorem depth_append (left right : List (Token α)) :
    depth (left ++ right) = depth left + depth right := by
  simp only [depth, operands_append, operators_append, List.length_append]
  omega

section Unique

variable {missing : MissingVariable} {bound : String → Prop}

theorem Stops.unique {before : List (Token α)} {t : Token α} {fault fault' : Fault}
    (h : Stops missing bound before t fault) (h' : Stops missing bound before t fault') :
    fault = fault' := by
  cases h <;> cases h' <;> rfl

theorem FirstStop.unique {tokens : List (Token α)} {fault fault' : Fault}
    (h : FirstStop missing bound tokens fault) (h' : FirstStop missing bound tokens fault') :
    fault = fault' := by
  obtain ⟨position, t, ht, hstop, hfirst⟩ := h
  obtain ⟨position', t', ht', hstop', hfirst'⟩ := h'
  rcases Nat.lt_trichotomy position position' with hlt | rfl | hgt
  · exact absurd hstop (hfirst' position hlt t ht fault)
  · obtain rfl := Option.some.inj (ht.symm.trans ht')
    exact hstop.unique hstop'
  · exact absurd hstop' (hfirst position' hgt t' ht' fault')

theorem Ends.unique [Numeral α] {p : Program α} {result result' : Except Fault Unit}
    (h : Ends missing bound p result) (h' : Ends missing bound p result') : result = result' := by
  cases h with
  | stopped hstop =>
      cases h' with
      | stopped hstop' => rw [hstop.unique hstop']
      | leftover hruns => exact absurd hstop (hruns _)
      | value hruns => exact absurd hstop (hruns _)
  | leftover hruns hcount hne =>
      cases h' with
      | stopped hstop' => exact absurd hstop' (hruns _)
      | leftover _ hcount' => rw [Int.ofNat_inj.1 (hcount.symm.trans hcount')]
      | value _ hcount' => omega
  | value hruns hcount =>
      cases h' with
      | stopped hstop' => exact absurd hstop' (hruns _)
      | leftover _ hcount' hne => omega
      | value => rfl

end Unique

/-! ## Runs -/

variable [Scalar α]

private theorem lookup_cases (missing : MissingVariable) (bindings : Bindings α) (name : String) :
    (missing = .fail ∧ name ∉ bindings ∧
        lookup missing bindings name = .error (.variableNotDefined name)) ∨
      ((missing = .fail → name ∈ bindings) ∧
        ∃ value, lookup missing bindings name = .ok value) := by
  by_cases h : missing = .fail → name ∈ bindings
  · exact .inr ⟨h, _, lookup_eq h⟩
  · rw [Classical.not_imp] at h
    obtain ⟨rfl, hname⟩ := h
    refine .inl ⟨rfl, hname, ?_⟩
    simp [lookup, Std.ExtTreeMap.getElem?_eq_none hname]

variable [Numeral α]

private theorem step_stops (p : Program α) (missing : MissingVariable) {bindings : Bindings α}
    {before : List (Token α)} {stack : List α} (hstack : (stack.length : Int) = depth before)
    {t : Token α} (ht : ∀ op ∈ operators [t], op.isParen = false) :
    (∃ fault, Stops missing (· ∈ bindings) before t fault ∧
        p.step missing bindings stack t = .error fault) ∨
      (∀ fault, ¬Stops missing (· ∈ bindings) before t fault) ∧
        ∃ next, p.step missing bindings stack t = .ok next ∧
          (next.length : Int) = depth (before ++ [t]) := by
  rw [depth_append, ← hstack]
  cases t with
  | number value => exact .inr ⟨nofun, value :: stack, rfl, rfl⟩
  | identifier name negated =>
      obtain ⟨hstrict, hname, hlookup⟩ | ⟨hname, value, hlookup⟩ :=
        lookup_cases missing bindings name
      · exact .inl ⟨_, .binding hstrict hname, by rw [step, hlookup]; rfl⟩
      · refine .inr ⟨?_, _, by rw [step, hlookup]; rfl, rfl⟩
        rintro fault ⟨⟩
        rename_i hstrict hnone
        exact hnone (hname hstrict)
  | operator op =>
      have hbinary : op.isParen = false := ht op List.mem_cons_self
      obtain _ | ⟨b, _ | ⟨a, rest⟩⟩ := stack
      · exact .inl ⟨_, .operand (hstack ▸ by simp), rfl⟩
      · exact .inl ⟨_, .operand (hstack ▸ by simp), rfl⟩
      · obtain ⟨result, hresult⟩ := Option.isSome_iff_exists.1
          (Operator.isSome_result? hbinary a b)
        refine .inr ⟨?_, result :: rest, by simp [step, hresult], ?_⟩
        · rintro fault ⟨hdepth⟩
          simp only [List.length_cons] at hstack
          omega
        · have hdepth : depth [(.operator op : Token α)] = -1 := rfl
          rw [hdepth]
          simp only [List.length_cons]
          omega

/-- A run fails exactly at the first token that it cannot go past.  Tokens that it has gone past
already are kept in view. -/
private theorem foldlM_step_stops (p : Program α) (missing : MissingVariable)
    {bindings : Bindings α} {before rest : List (Token α)}
    (hbefore : ∀ earlier < before.length, ∀ u, (before ++ rest)[earlier]? = some u →
      ∀ fault, ¬Stops missing (· ∈ bindings) ((before ++ rest).take earlier) u fault)
    (hrest : ∀ op ∈ operators rest, op.isParen = false) {stack : List α}
    (hstack : (stack.length : Int) = depth before) :
    (∃ fault, FirstStop missing (· ∈ bindings) (before ++ rest) fault ∧
        rest.foldlM (p.step missing bindings) stack = .error fault) ∨
      (∀ fault, ¬FirstStop missing (· ∈ bindings) (before ++ rest) fault) ∧
        ∃ final, rest.foldlM (p.step missing bindings) stack = .ok final ∧
          (final.length : Int) = depth (before ++ rest) := by
  induction rest generalizing before stack with
  | nil =>
      rw [List.append_nil] at hbefore ⊢
      refine .inr ⟨?_, stack, rfl, hstack⟩
      rintro fault ⟨position, t, ht, hstop, -⟩
      exact hbefore position (List.getElem?_eq_some_iff.1 ht).1 t ht fault hstop
  | cons t rest ih =>
      have hoperators : operators (t :: rest) = operators [t] ++ operators rest :=
        operators_append [t] rest
      rw [hoperators, List.forall_mem_append] at hrest
      have hhere : (before ++ t :: rest)[before.length]? = some t := by simp
      have htake : (before ++ t :: rest).take before.length = before := List.take_left
      rw [List.foldlM_cons]
      obtain ⟨fault, hstop, hstep⟩ | ⟨hgoes, next, hstep, hnext⟩ :=
        p.step_stops missing hstack hrest.1
      · refine .inl ⟨fault, ⟨before.length, t, hhere, ?_, hbefore⟩, by rw [hstep]; rfl⟩
        rwa [htake]
      · rw [hstep]
        have hsplit : before ++ t :: rest = before ++ [t] ++ rest := by simp
        rw [hsplit] at hbefore hhere htake ⊢
        refine ih ?_ hrest.2 hnext
        intro earlier hearlier u hu
        rw [List.length_append, List.length_singleton] at hearlier
        rcases Nat.lt_succ_iff_lt_or_eq.1 hearlier with hlt | rfl
        · exact hbefore earlier hlt u hu
        · rw [htake]
          obtain rfl := Option.some.inj (hhere.symm.trans hu)
          exact hgoes

/-- The outcome of an evaluation without its value. -/
def outcome (p : Program α) (missing : MissingVariable) (bindings : Bindings α) :
    Except Fault Unit :=
  (p.evaluate missing bindings).map fun _ => ()

private theorem ends_outcome {p : Program α} (hp : ∀ op ∈ operators p.tokens, op.isParen = false)
    (missing : MissingVariable) (bindings : Bindings α) :
    Ends missing (· ∈ bindings) p (p.outcome missing bindings) := by
  have hnone : ∀ earlier < ([] : List (Token α)).length, ∀ u, ([] ++ p.tokens)[earlier]? = some u →
      ∀ fault, ¬Stops missing (· ∈ bindings) (([] ++ p.tokens).take earlier) u fault :=
    fun _ hlt => absurd hlt (Nat.not_lt_zero _)
  have hempty : (([] : List α).length : Int) = depth ([] : List (Token α)) := rfl
  unfold outcome evaluate
  obtain ⟨fault, hstop, hrun⟩ | ⟨hruns, final, hrun, hlength⟩ :=
    p.foldlM_step_stops missing hnone hp hempty
  · rw [hrun]
    exact .stopped hstop
  · rw [hrun]
    rw [List.nil_append] at hruns hlength
    match final with
    | [] => exact .leftover hruns hlength.symm (Nat.zero_ne_one)
    | [_] => exact .value hruns hlength.symm
    | a :: b :: rest => exact .leftover hruns hlength.symm (by simp)

private theorem ends_iff {p : Program α} (hp : ∀ op ∈ operators p.tokens, op.isParen = false)
    {missing : MissingVariable} {bindings : Bindings α} {result : Except Fault Unit} :
    Ends missing (· ∈ bindings) p result ↔ p.outcome missing bindings = result := by
  constructor
  · exact (ends_outcome hp missing bindings).unique
  · rintro rfl
    exact ends_outcome hp missing bindings

/-! ## What an end depends on -/

section Congruence

omit [Scalar α] [Numeral α]

variable {missing : MissingVariable} {bound bound' : String → Prop}

private theorem Stops.of_bound {before : List (Token α)} {t : Token α} {fault : Fault}
    (h : missing = .fail → ∀ name, t.name? = some name → (bound name ↔ bound' name))
    (hstop : Stops missing bound before t fault) : Stops missing bound' before t fault := by
  cases hstop with
  | operand hdepth => exact .operand hdepth
  | binding hstrict hname => exact .binding hstrict (mt (h hstrict _ rfl).2 hname)

theorem FirstStop.congr {tokens : List (Token α)} {fault : Fault}
    (h : missing = .fail → ∀ t ∈ tokens, ∀ name, t.name? = some name →
      (bound name ↔ bound' name)) :
    FirstStop missing bound tokens fault ↔ FirstStop missing bound' tokens fault := by
  have hstops : ∀ {position t}, tokens[position]? = some t → ∀ other,
      Stops missing bound (tokens.take position) t other ↔
        Stops missing bound' (tokens.take position) t other := by
    intro position t ht other
    have hmem := List.mem_of_getElem? ht
    exact ⟨.of_bound fun hstrict => h hstrict t hmem,
      .of_bound fun hstrict name hname => (h hstrict t hmem name hname).symm⟩
  refine exists_congr fun position => exists_congr fun t => and_congr_right fun ht => ?_
  refine and_congr (hstops ht fault) (forall₂_congr fun earlier _ => forall₂_congr fun u hu => ?_)
  exact forall_congr' fun other => not_congr (hstops hu other)

end Congruence

theorem outcome_congr {p : Program α} (hp : ∀ op ∈ operators p.tokens, op.isParen = false)
    {missing : MissingVariable} {b b' : Bindings α}
    (h : missing = .fail → ∀ name, p.references name = true → (name ∈ b ↔ name ∈ b')) :
    p.outcome missing b = p.outcome missing b' := by
  have hstop : ∀ fault, FirstStop missing (· ∈ b) p.tokens fault ↔
      FirstStop missing (· ∈ b') p.tokens fault := by
    refine fun fault => FirstStop.congr fun hstrict t ht name hname => h hstrict name ?_
    exact references_iff.2 ⟨t, ht, hname⟩
  refine Ends.unique ?_ (ends_outcome hp missing b')
  have hends := ends_outcome hp missing b
  generalize p.outcome missing b = result at hends ⊢
  cases hends with
  | stopped hfirst => exact .stopped ((hstop _).1 hfirst)
  | leftover hruns hcount hne =>
      exact .leftover (fun fault => mt (hstop fault).2 (hruns fault)) hcount hne
  | value hruns hcount => exact .value (fun fault => mt (hstop fault).2 (hruns fault)) hcount

private theorem isOk_outcome (p : Program α) (missing : MissingVariable) (bindings : Bindings α) :
    (p.outcome missing bindings).isOk = (p.evaluate missing bindings).isOk := by
  unfold outcome
  cases p.evaluate missing bindings <;> rfl

theorem evaluate_fail_eq {p : Program α} {bindings : Bindings α}
    (h : ∀ name, p.references name = true → name ∈ bindings) :
    p.evaluate .fail bindings = p.evaluate .zero bindings := by
  have hrun : ∀ (tokens : List (Token α)) (stack : List α),
      (∀ t ∈ tokens, ∀ name, t.name? = some name → name ∈ bindings) →
      tokens.foldlM (p.step .fail bindings) stack =
        tokens.foldlM (p.step .zero bindings) stack := by
    intro tokens
    induction tokens with
    | nil => exact fun _ _ => rfl
    | cons t tokens ih =>
        intro stack htokens
        have hstep : p.step .fail bindings stack t = p.step .zero bindings stack t := by
          cases t with
          | identifier name negated =>
              have hname := htokens _ List.mem_cons_self name rfl
              rw [step, step, lookup_eq fun _ => hname, lookup_eq fun _ => hname]
          | _ => rfl
        rw [List.foldlM_cons, List.foldlM_cons, hstep]
        congr 1
        funext next
        exact ih next fun t ht => htokens t (List.mem_cons_of_mem _ ht)
  rw [evaluate, evaluate, hrun p.tokens [] fun t ht name hname =>
    h name (references_iff.2 ⟨t, ht, hname⟩)]

/-- The end of every evaluation is known from the program and from which variables have values. -/
structure Foreseen (p : Program α) : Prop where
  ends_iff : ∀ missing (bindings : Bindings α) result,
    Ends missing (· ∈ bindings) p result ↔ p.outcome missing bindings = result
  outcome_congr : ∀ missing (b b' : Bindings α),
    (missing = .fail → ∀ name, p.references name = true → (name ∈ b ↔ name ∈ b')) →
      p.outcome missing b = p.outcome missing b'
  lenient : ∀ b : Bindings α, (p.evaluate .zero b).isOk = true ↔
    ∀ b' : Bindings α, (p.evaluate .zero b').isOk = true
  strict : ∀ bindings : Bindings α, (∀ name, p.references name = true → name ∈ bindings) →
    p.evaluate .fail bindings = p.evaluate .zero bindings

/-- Whatever was compiled, well formed or not, ends in a way that no value decides. -/
theorem foreseen_of_compile {text : String} {p : Program α} (h : compile text = .ok p) :
    p.Foreseen := by
  obtain ⟨haccepted, rfl⟩ := compile_eq_ok_iff.1 h
  have hparens := (isParen_of_balanced haccepted.balanced).2
  refine ⟨fun missing bindings result => ends_iff hparens, fun missing b b' =>
    outcome_congr hparens, fun b => ⟨fun hok b' => ?_, fun hall => hall b⟩, fun bindings =>
    evaluate_fail_eq⟩
  have hsame : (ofFormula (Token.ofText text)).outcome .zero b' =
      (ofFormula (Token.ofText text) : Program α).outcome .zero b :=
    outcome_congr hparens fun hstrict => by contradiction
  rw [← isOk_outcome] at hok ⊢
  rwa [hsame]

/-- The variable comes before the operator for which it is one operand too few. -/
theorem foreseen_of_compile_sum :
    ∃ p : Program Float, compile "() + x" = .ok p ∧ p.Foreseen ∧
      (∀ bindings, "x" ∉ bindings →
        p.outcome .fail bindings = .error (.variableNotDefined "x")) ∧
      ∀ bindings, p.outcome .zero bindings = .error (.notEnoughOperands .add) := by
  have hcompile : compile "() + x" =
      .ok (⟨[.identifier "x" false, .operator .add]⟩ : Program Float) := rfl
  have hforeseen := foreseen_of_compile hcompile
  refine ⟨_, hcompile, hforeseen, ?_, ?_⟩
  · intro bindings hname
    refine (hforeseen.ends_iff .fail bindings _).1 (.stopped ⟨0, _, rfl, .binding rfl hname, ?_⟩)
    exact fun _ hlt => absurd hlt (Nat.not_lt_zero _)
  · intro bindings
    refine (hforeseen.ends_iff .zero bindings _).1 (.stopped ⟨1, _, rfl, .operand (by decide), ?_⟩)
    rintro earlier hlt u hu other (_ | ⟨hstrict, -⟩)
    · obtain rfl : earlier = 0 := by omega
      simp at hu
    · contradiction

end DropTable.Program
