import DropTable.Proofs.Token.Rendering
/-!
# The pieces of a text

Reading cuts a text, without its blanks, into one piece for each token.  Nothing is left out,
whatever the text: what no operator separates is one operand, and only a sign begins an operand
right behind another one.
-/

namespace DropTable.Token

variable {α : Type} [Scalar α] [Numeral α]

/-- The text that is read. -/
def solid (text : String) : List Char :=
  text.toList.filter fun c => !Text.isBlank c

/-- Characters that are read as an operand: at least one, and no operator but a sign in front. -/
structure IsFragment (piece : List Char) : Prop where
  exists_body : ∃ body, body ≠ [] ∧ (∀ c ∈ body, Operator.ofChar? c = none) ∧
    (piece = body ∨ piece = '-' :: body)

/-- What a piece is read as. -/
inductive ReadAs : List Char → Token α → Prop
  | operator (op : Operator) : ReadAs [op.symbol] (.operator op)
  | operand {piece : List Char} (h : IsFragment piece) : ReadAs piece (ofFragment piece)

/-- A text in pieces, each with its token. -/
structure IsCut (pieces : List (List Char × Token α)) : Prop where
  reads : ∀ p ∈ pieces, ReadAs p.1 p.2
  /-- A sign does not stand right behind what it could be subtracted from. -/
  signs : ∀ before body t after, pieces = before ++ ('-' :: body, t) :: after →
    t.operator? = none → ∀ c ∈ (before.flatMap Prod.fst).getLast?,
      Text.isAlphanumeric c = false ∧ c ≠ '_' ∧ c ≠ ')'
  /-- Only a sign separates two operands. -/
  joins : pieces.IsChain fun p q => p.2.operator? = none → q.2.operator? = none →
    ∃ body, q.1 = '-' :: body

/-! ## One piece -/

private theorem minus_notMem {body : List Char} (h : ∀ c ∈ body, Operator.ofChar? c = none) :
    '-' ∉ body :=
  fun hmem => Option.some_ne_none Operator.subtract (h '-' hmem)

theorem IsFragment.ne_nil {piece : List Char} (h : IsFragment piece) : piece ≠ [] := by
  obtain ⟨body, hne, -, rfl | rfl⟩ := h.exists_body
  · exact hne
  · exact List.cons_ne_nil _ _

variable (α) in
theorem IsFragment.ofFragment_cases {piece : List Char} (h : IsFragment piece) :
    ∃ body, body ≠ [] ∧ body.getLast? = piece.getLast? ∧
      ((∃ d value, Decimal.read? body = some d ∧
          (ofFragment piece : Token α) = .number value) ∨
        ∃ negated, (ofFragment piece : Token α) = .identifier (String.ofList body) negated) := by
  obtain ⟨body, hne, hbody, hpiece⟩ := h.exists_body
  have hlast : body.getLast? = piece.getLast? := by
    rcases hpiece with rfl | rfl
    · rfl
    · obtain ⟨c, hlast⟩ := Option.ne_none_iff_exists'.1 (mt List.getLast?_eq_none_iff.1 hne)
      rw [List.getLast?_cons, hlast]
      rfl
  refine ⟨body, hne, hlast, ?_⟩
  unfold ofFragment
  split
  next negated body' hsplit =>
    have hbehind : body' = body := by
      rcases hpiece with rfl | rfl
      · split at hsplit
        next rest => exact absurd List.mem_cons_self (minus_notMem hbody)
        next => exact (Prod.mk.inj hsplit).2.symm
      · exact (Prod.mk.inj hsplit).2.symm
    subst hbehind
    extract_lets numeric
    split
    next d hread =>
      refine .inl ⟨d, _, ?_, rfl⟩
      split at hread
      · exact hread
      · contradiction
    next => exact .inr ⟨_, rfl⟩

private theorem ReadAs.exists_fragment {piece : List Char} {t : Token α} (h : ReadAs piece t)
    (hop : t.operator? = none) : IsFragment piece ∧ t = ofFragment piece := by
  cases h with
  | operator op => contradiction
  | operand h => exact ⟨h, rfl⟩

theorem ReadAs.ne_nil {piece : List Char} {t : Token α} (h : ReadAs piece t) : piece ≠ [] := by
  cases h with
  | operator op => exact List.cons_ne_nil _ _
  | operand h => exact h.ne_nil

private theorem ReadAs.ne_unnamed {piece : List Char} {t : Token α} (h : ReadAs piece t)
    (negated : Bool) : t ≠ .identifier "" negated := by
  rintro rfl
  obtain ⟨hfragment, hread⟩ := h.exists_fragment rfl
  obtain ⟨body, hne, -, ⟨d, value, -, hnumber⟩ | ⟨negated', hname⟩⟩ :=
    hfragment.ofFragment_cases α
  · rw [hnumber] at hread
    contradiction
  · rw [hname] at hread
    obtain ⟨hempty, -⟩ := Token.identifier.inj hread
    exact hne (String.ofList_inj.1 hempty.symm)

/-! ## One piece more -/

private theorem any_endsOperand_eq_false_iff {previous : Option Char} :
    previous.any endsOperand = false ↔
      ∀ c ∈ previous, Text.isAlphanumeric c = false ∧ c ≠ '_' ∧ c ≠ ')' := by
  cases previous <;> simp [endsOperand, and_assoc]

private theorem isCut_nil : IsCut ([] : List (List Char × Token α)) where
  reads := List.forall_mem_nil _
  signs := by
    intro before body t after h
    simp at h
  joins := .nil

theorem IsCut.concat {pieces : List (List Char × Token α)} (h : IsCut pieces) {piece : List Char}
    {t : Token α} (hread : ReadAs piece t)
    (hsign : ∀ body, piece = '-' :: body → t.operator? = none →
      (pieces.flatMap Prod.fst).getLast?.any endsOperand = false)
    (hjoin : ∀ p ∈ pieces.getLast?, p.2.operator? = none → t.operator? = none →
      ∃ body, piece = '-' :: body) :
    IsCut (pieces ++ [(piece, t)]) where
  reads := by
    rw [List.forall_mem_append, List.forall_mem_singleton]
    exact ⟨h.reads, hread⟩
  signs := by
    intro before body u after hsplit hop
    rcases List.eq_nil_or_concat' after with rfl | ⟨after, last, rfl⟩
    · obtain ⟨rfl, hlast⟩ := List.append_inj' hsplit rfl
      obtain ⟨rfl, rfl⟩ := Prod.mk.inj (List.head_eq_of_cons_eq hlast)
      exact any_endsOperand_eq_false_iff.1 (hsign body rfl hop)
    · rw [← List.cons_append, ← List.append_assoc] at hsplit
      exact h.signs before body u after (List.append_inj' hsplit rfl).1 hop
  joins := by
    rw [List.isChain_append]
    refine ⟨h.joins, .singleton _, ?_⟩
    rintro p hp q ⟨⟩
    exact hjoin p hp

private theorem IsCut.concat_operator {pieces : List (List Char × Token α)} (h : IsCut pieces)
    (op : Operator) : IsCut (pieces ++ [([op.symbol], .operator op)]) := by
  refine h.concat (.operator op) ?_ ?_
  · intro body _ hop
    contradiction
  · intro p _ _ hop
    contradiction

/-! ## Reading on -/

/-- What is known of the operand that is being read behind some pieces.  A sign that nothing stands
behind yet waits for the character to come. -/
inductive Pending (pieces : List (List Char × Token α)) (rest : List Char) : List Char → Prop
  | plain {body : List Char} (hbody : ∀ c ∈ body, Operator.ofChar? c = none)
      (hjoin : ∀ p ∈ pieces.getLast?, p.2.operator? ≠ none) : Pending pieces rest body
  | signed {body : List Char} (hbody : ∀ c ∈ body, Operator.ofChar? c = none)
      (hsign : (pieces.flatMap Prod.fst).getLast?.any endsOperand = false)
      (hnext : body = [] → rest.head?.any beginsLiteral = true) : Pending pieces rest ('-' :: body)

omit [Scalar α] [Numeral α] in
private theorem Pending.push {pieces : List (List Char × Token α)} {c : Char}
    {rest word : List Char} (h : Pending pieces (c :: rest) word) (hc : Operator.ofChar? c = none) :
    Pending pieces rest (word ++ [c]) := by
  cases h with
  | plain hbody hjoin =>
      exact .plain (List.forall_mem_append.2 ⟨hbody, List.forall_mem_singleton.2 hc⟩) hjoin
  | signed hbody hsign hnext =>
      refine .signed (List.forall_mem_append.2 ⟨hbody, List.forall_mem_singleton.2 hc⟩) hsign ?_
      intro hnil
      exact absurd hnil (List.append_ne_nil_of_right_ne_nil _ (List.cons_ne_nil _ _))

private theorem Pending.concat {pieces : List (List Char × Token α)} {rest word : List Char}
    (h : Pending pieces rest word) (hcut : IsCut pieces) (hne : word ≠ [])
    (hrest : rest.head?.any beginsLiteral = false) :
    IsCut (pieces ++ [(word, ofFragment word)]) := by
  cases h with
  | plain hbody hjoin =>
      refine hcut.concat (.operand ⟨word, hne, hbody, .inl rfl⟩) ?_ ?_
      · rintro body rfl
        exact absurd List.mem_cons_self (minus_notMem hbody)
      · exact fun p hp hop => absurd hop (hjoin p hp)
  | @signed body hbody hsign hnext =>
      have hne : body ≠ [] := by
        intro hnil
        rw [hnext hnil] at hrest
        contradiction
      refine hcut.concat (.operand ⟨body, hne, hbody, .inr rfl⟩) ?_ ?_
      · exact fun _ _ _ => hsign
      · exact fun _ _ _ _ => ⟨body, rfl⟩

private theorem Pending.flush {pieces : List (List Char × Token α)} {pending rest : List Char}
    (h : Pending pieces rest pending.reverse) (hcut : IsCut pieces)
    (hrest : rest.head?.any beginsLiteral = false) :
    ∃ flushed : List (List Char × Token α), IsCut (pieces ++ flushed) ∧
      flushed.flatMap Prod.fst = pending.reverse ∧ flushed.map Prod.snd = ofPending pending := by
  by_cases hne : pending = []
  · subst hne
    exact ⟨[], by rwa [List.append_nil], rfl, rfl⟩
  · refine ⟨[(pending.reverse, ofFragment pending.reverse)], ?_, ?_, ?_⟩
    · exact h.concat hcut (mt List.reverse_eq_nil_iff.1 hne) hrest
    · exact List.append_nil _
    · exact (ofPending_of_ne_nil hne).symm

theorem beginsLiteral_symbol (op : Operator) : beginsLiteral op.symbol = false := by
  cases op <;> decide

private theorem exists_step {pieces : List (List Char × Token α)} (hcut : IsCut pieces) {c : Char}
    {pending rest : List Char} (hpending : Pending pieces (c :: rest) pending.reverse) :
    ∃ more next, IsCut (pieces ++ more) ∧ Pending (pieces ++ more) rest next.reverse ∧
      more.flatMap Prod.fst ++ next.reverse = pending.reverse ++ [c] ∧
      scan (pieces.flatMap Prod.fst ++ pending.reverse).getLast? pending (c :: rest) =
        more.map Prod.snd ++ scan (some c) next rest := by
  cases hop : Operator.ofChar? c with
  | none =>
      refine ⟨[], c :: pending, ?_, ?_, List.reverse_cons, ?_⟩
      · rwa [List.append_nil]
      · rw [List.append_nil, List.reverse_cons]
        exact hpending.push hop
      · exact scan_body (List.forall_mem_singleton.2 hop) _ pending rest
  | some op =>
      obtain rfl := Operator.eq_symbol_of_ofChar? hop
      obtain ⟨flushed, hflushed, htext, htokens⟩ :=
        hpending.flush hcut (beginsLiteral_symbol op)
      rw [scan_flush _ _ (isSome_ofChar?_symbol op rest), ← htext, ← List.flatMap_append, ← htokens]
      by_cases hsign : op = .subtract ∧
          ((pieces ++ flushed).flatMap Prod.fst).getLast?.any endsOperand = false ∧
          rest.head?.any beginsLiteral = true
      · -- The sign waits for the operand that it belongs to.
        obtain ⟨rfl, hprevious, hnext⟩ := hsign
        refine ⟨flushed, ['-'], hflushed, ?_, rfl, ?_⟩
        · exact .signed (List.forall_mem_nil _) hprevious fun _ => hnext
        · rw [Operator.symbol, scan_sign hprevious hnext]
      · have hbinary : op = .subtract →
            ((pieces ++ flushed).flatMap Prod.fst).getLast?.any endsOperand = false →
            rest.head?.any beginsLiteral = false :=
          fun hminus hprevious => Bool.eq_false_iff.2 fun hnext => hsign ⟨hminus, hprevious, hnext⟩
        refine ⟨flushed ++ [([op.symbol], .operator op)], [], ?_, ?_, ?_, ?_⟩
        · rw [← List.append_assoc]
          exact hflushed.concat_operator op
        · rw [← List.append_assoc]
          refine .plain (List.forall_mem_nil _) fun p hp => ?_
          rw [List.getLast?_concat] at hp
          obtain rfl := Option.some.inj hp
          exact Option.some_ne_none op
        · rw [List.flatMap_append]
          exact List.append_nil _
        · rw [scan_operator hbinary, List.map_append, List.append_assoc]
          rfl

/-- Reading on behind some pieces cuts the rest of the text.  The character before it is the last
one of all that has been read, in pieces or not. -/
private theorem exists_isCut_scan {pieces : List (List Char × Token α)} (hcut : IsCut pieces)
    {pending rest : List Char} (hpending : Pending pieces rest pending.reverse) :
    ∃ more, IsCut (pieces ++ more) ∧ more.flatMap Prod.fst = pending.reverse ++ rest ∧
      more.map Prod.snd =
        scan (pieces.flatMap Prod.fst ++ pending.reverse).getLast? pending rest := by
  induction rest generalizing pieces pending with
  | nil =>
      obtain ⟨flushed, hflushed, htext, htokens⟩ := hpending.flush hcut rfl
      exact ⟨flushed, hflushed, by rw [htext, List.append_nil], htokens⟩
  | cons c rest ih =>
      obtain ⟨first, next, hfirst, hnext, htext, hscan⟩ := exists_step hcut hpending
      obtain ⟨more, hmore, htext', htokens⟩ := ih hfirst hnext
      have hprevious : ((pieces ++ first).flatMap Prod.fst ++ next.reverse).getLast? = some c := by
        rw [List.flatMap_append, List.append_assoc, htext, ← List.append_assoc,
          List.getLast?_concat]
      refine ⟨first ++ more, ?_, ?_, ?_⟩
      · rwa [← List.append_assoc]
      · rw [List.flatMap_append, htext', ← List.append_assoc, htext, List.append_assoc]
        rfl
      · rw [List.map_append, hscan, htokens, hprevious]

variable (α) in
theorem exists_isCut_ofText (text : String) :
    ∃ pieces : List (List Char × Token α), IsCut pieces ∧
      pieces.flatMap Prod.fst = solid text ∧ pieces.map Prod.snd = ofText text := by
  have hpending : Pending ([] : List (List Char × Token α)) (solid text) [].reverse :=
    .plain (List.forall_mem_nil _) nofun
  exact exists_isCut_scan isCut_nil hpending

/-- Every text is cut into the pieces that its tokens are read from, and none of them is empty or a
sign alone. -/
theorem isCut_ofText (text : String) :
    ∃ pieces : List (List Char × Token α), IsCut pieces ∧ (∀ p ∈ pieces, p.1 ≠ []) ∧
      pieces.flatMap Prod.fst = solid text ∧ pieces.map Prod.snd = ofText text ∧
      ∀ t ∈ (ofText text : List (Token α)), ∀ negated, t ≠ .identifier "" negated := by
  obtain ⟨pieces, hcut, htext, htokens⟩ := exists_isCut_ofText α text
  refine ⟨pieces, hcut, fun p hp => (hcut.reads p hp).ne_nil, htext, htokens, ?_⟩
  rw [← htokens]
  intro t ht
  obtain ⟨p, hp, rfl⟩ := List.mem_map.1 ht
  exact (hcut.reads p hp).ne_unnamed

end DropTable.Token
