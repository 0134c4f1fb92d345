import GrammarKit.Proofs.Outlook

/-!
# Grammars that one token decides

A parser that tries alternatives in order and repeats as often as it can does not in general find the
words of a context-free grammar: an alternative that matches hides the ones behind it, and a
repetition may take a token that what follows it needs.  Neither happens if the token ahead always
tells which way to go.

What stands behind a word is not known, though, where the word may be one of several prefixes of the
same tokens.  So the statement that goes through by induction has two parts: an expression takes at
least what it stands for, and it takes no more if the token behind may follow it.

* `Covers`: a step takes at least a word.
* `Outlook.Fits.takes_of_yields`: **an expression takes at least what it stands for**, and not more
  if the token behind may follow it.
* `Outlook.Fits.matchList_longest`: a rule takes the longest word that it stands for.
-/

namespace GrammarKit

variable {T X : Type}

/-! ## 1.  Steps that take enough -/

section Steps

variable {dispatch : ListDispatch T X} {tokens mid rest : List T} {first second : Pieces T X}

/-- `step` takes `word` and perhaps some of the tokens behind it.  If `exact` holds it takes no more,
and records `pieces`. -/
def Covers (step : ListStep T X) (word rest : List T) (pieces : Pieces T X) (exact : Prop) : Prop :=
  ∃ more rest' pieces', rest = more ++ rest' ∧ Takes step (word ++ rest) pieces' rest' ∧
    (exact → more = [] ∧ pieces' = pieces)

theorem Takes.covers {step : ListStep T X} {word : List T} {exact : Prop}
    (h : Takes step (word ++ rest) first rest) : Covers step word rest first exact :=
  ⟨[], rest, first, rfl, h, fun _ => ⟨rfl, rfl⟩⟩

theorem takes_seq_iff {items : List (Expr T)} :
    Takes (fun a => (Expr.seq items).attempt dispatch a) tokens first rest ↔
      Takes (fun a => Expr.attemptAll dispatch items a) tokens first rest := by
  constructor
  · intro h p
    have hseq := h p
    simp only [Expr.attempt] at hseq
    rcases hall : Expr.attemptAll dispatch items ⟨tokens, p, ()⟩ with ⟨outcome, b⟩
    rw [hall] at hseq
    cases outcome with
    | matched value => exact hall.trans hseq
    | noMatch why => cases congrArg Prod.fst hseq
    | failed why => cases congrArg Prod.fst hseq
  · exact Expr.takes_seq

theorem Takes.seq_nil : Takes (fun a => (Expr.seq []).attempt dispatch a) tokens .nil tokens := by
  refine takes_seq_iff.mpr ?_
  simp only [Expr.attemptAll]
  exact takes_self tokens

theorem Takes.seq_cons {item : Expr T} {items : List (Expr T)}
    (hitem : Takes (fun a => item.attempt dispatch a) tokens first mid)
    (hitems : Takes (fun a => (Expr.seq items).attempt dispatch a) mid second rest) :
    Takes (fun a => (Expr.seq (item :: items)).attempt dispatch a) tokens (first ++ second)
      rest :=
  takes_seq_iff.mpr (Expr.takes_attemptAll_cons hitem (takes_seq_iff.mp hitems))

theorem takes_rep_zero_iff {body : Expr T} :
    Takes (fun a => (Expr.rep 0 body).attempt dispatch a) tokens first rest ↔
      Takes (Attempt.roundsWhileAny fun a => body.attempt dispatch a) tokens first rest := by
  refine forall_congr' fun p => ?_
  rw [Expr.attempt_rep_eq_matched]
  simp [Attempt.rounds]

/-- One round that takes something, and then the rest of the repetition. -/
theorem Takes.rep_more {least : Nat} {body : Expr T}
    (hbody : Takes (fun a => body.attempt dispatch a) tokens first mid)
    (hless : mid.length < tokens.length)
    (hrest : Takes (fun a => (Expr.rep (least - 1) body).attempt dispatch a) mid second rest) :
    Takes (fun a => (Expr.rep least body).attempt dispatch a) tokens (first ++ second) rest := by
  cases least with
  | zero =>
    rw [Nat.zero_sub] at hrest
    exact takes_rep_zero_iff.mpr (hbody.roundsWhileAny hless (takes_rep_zero_iff.mp hrest))
  | succ least =>
    intro p
    obtain ⟨b, hrounds, hmore⟩ := Expr.attempt_rep_eq_matched.mp (hrest (p.record first))
    refine Expr.attempt_rep_eq_matched.mpr ⟨b, ?_, ?_⟩
    · have hround := hbody p
      dsimp only at hround
      rw [Attempt.rounds, hround]
      exact hrounds
    · rw [hmore, Production.record_record]

theorem Takes.choice_of_refuses {item : Expr T} {before behind : List (Expr T)}
    (hbefore : ∀ x ∈ before, Refuses (fun a => x.attempt dispatch a) tokens)
    (hitem : Takes (fun a => item.attempt dispatch a) tokens first rest) :
    Takes (fun a => (Expr.choice (before ++ item :: behind)).attempt dispatch a) tokens first
      rest := by
  simp only [Expr.attempt]
  induction before with
  | nil => exact Expr.takes_attemptFirst_head hitem
  | cons x before ih =>
    intro p
    dsimp only
    rw [List.cons_append, Expr.attemptFirst_of_refuses (hbefore x List.mem_cons_self)]
    exact ih (fun y hy => hbefore y (List.mem_cons_of_mem x hy)) p

theorem attemptAlternatives_of_refuses {algebra : Reduction T X → X} {r : RuleId}
    {alternative : Alternative T} {before behind : List (Alternative T)}
    (hbefore : ∀ x ∈ before, Refuses (fun a => x.expr.attempt dispatch a) tokens)
    (htakes : Takes (fun a => alternative.expr.attempt dispatch a) tokens first rest) :
    attemptAlternatives (algebraBuilder algebra) dispatch r (before ++ alternative :: behind) ()
        tokens =
      ⟨.matched (alternative.shape.value algebra r first), (), rest⟩ := by
  induction before with
  | nil =>
    have hitem := htakes (Production.start r alternative.shape)
    dsimp only at hitem
    rw [List.nil_append, attemptAlternatives, hitem]
    rfl
  | cons x before ih =>
    obtain ⟨why, hrefuses⟩ := hbefore x List.mem_cons_self
    have hx := hrefuses (Production.start r x.shape)
    dsimp only at hx
    rw [List.cons_append, attemptAlternatives, hx]
    exact ih fun y hy => hbefore y (List.mem_cons_of_mem x hy)

end Steps

/-! ## 2.  An expression takes what it stands for -/

theorem Expr.fits_of_mem {o : Outlook T} {ahead : Option T} {after : Bool} {item : Expr T}
    {items : List (Expr T)} (hmem : item ∈ items) (h : fitsAny o ahead after items = true) :
    item.fits o ahead after = true := by
  induction items with
  | nil => cases hmem
  | cons first items ih =>
    rw [fitsAny, Bool.and_eq_true, Bool.and_eq_true] at h
    rcases List.mem_cons.mp hmem with rfl | hmem
    · exact h.1.1
    · exact ih hmem h.1.2

namespace Outlook.Fits

variable {g : Grammar T} {algebra : Reduction T X → X} {o : Outlook T}

/-- **The items before the one that is due are refused.** -/
theorem refuses_before (ho : o.Fits g.productions) {after : Option T → Bool} {item : Expr T}
    {word rest : List T} {pieces : Pieces T X} (hyields : g.Yields algebra item word pieces)
    (hdue : word ≠ [] ∨ after rest.head? = true) (behind : List (Expr T)) :
    ∀ before : List (Expr T), (∀ x ∈ before, x.references ⊆ g.ids) →
      (∀ ahead, Expr.fitsAny o ahead (after ahead) (before ++ item :: behind) = true) →
      ∀ x ∈ before, Refuses (fun a => x.attempt (g.matchList algebra) a) (word ++ rest)
  | [], _, _, x, hx => absurd hx List.not_mem_nil
  | first :: before, hrefs, hfits, x, hx => by
    have hitem : item ∈ before ++ item :: behind := by simp
    have hnonempty : (before ++ item :: behind).isEmpty = false := by
      cases before <;> rfl
    have hall := hfits (word ++ rest).head?
    rw [List.cons_append, Expr.fitsAny] at hall
    simp only [hnonempty, Bool.false_or, Bool.and_eq_true, Bool.not_eq_true'] at hall
    obtain ⟨-, hempty, hstarts⟩ := hall
    rcases List.mem_cons.mp hx with rfl | hx
    · refine ho.refuses_of_not_startsAt (hrefs x List.mem_cons_self) hempty ?_
      -- What is ahead belongs to a later item, so it cannot belong to this one.
      have hlater : (Expr.startsAny o (word ++ rest).head? (before ++ item :: behind) ||
          (Expr.anyMayBeEmpty o.nullable (before ++ item :: behind) &&
            after (word ++ rest).head?)) = true := by
        by_cases hword : word = []
        · subst hword
          rw [Bool.or_eq_true, Bool.and_eq_true]
          exact Or.inr ⟨Expr.mayBeEmpty_of_mem hitem (ho.ranked.mayBeEmpty_of_yields hyields rfl),
            hdue.resolve_left fun h => h rfl⟩
        · have hstarts := ho.startsAt_of_yields hyields hword
          rw [List.head?_append_of_ne_nil _ hword, Expr.startsAt_of_mem hitem hstarts]
          rfl
      rwa [hlater, Bool.and_true] at hstarts
    · refine ho.refuses_before hyields hdue behind before
        (fun y hy => hrefs y (List.mem_cons_of_mem first hy)) (fun ahead => ?_) x hx
      have hall := hfits ahead
      rw [List.cons_append, Expr.fitsAny, Bool.and_eq_true, Bool.and_eq_true] at hall
      exact hall.1.2

/-- An expression that does not refuse takes something, which is all that has to be shown of an
empty word when it is not clear what stands behind. -/
theorem covers_of_not_refuses (ho : o.Fits g.productions) {e : Expr T}
    (he : e.references ⊆ g.ids) {rest : List T} {pieces : Pieces T X} {exact : Prop}
    (hexact : ¬ exact)
    (h : ¬ Refuses (fun a => e.attempt (g.matchList algebra) a) rest) :
    Covers (fun a => e.attempt (g.matchList algebra) a) [] rest pieces exact := by
  obtain ⟨more, rest', pieces', hrest, -, htakes⟩ | hrefuses :=
    ho.ranked.attempt_decides he rest
  · exact ⟨more, rest', pieces', hrest, htakes, fun h => absurd h hexact⟩
  · exact absurd hrefuses h

/-- Behind a rule stands what follows it, and something does if the rule may be empty. -/
theorem follows_of_fits {r : RuleId} {ahead : Option T} {after : Bool}
    (h : (Expr.nonterm r).fits o ahead after = true) (hafter : after = true) :
    o.follows r ahead = true ∧ (o.nullable r = true → ahead.isSome = true) := by
  rw [Expr.fits, hafter, Bool.not_true, Bool.false_or, Bool.and_eq_true, Bool.or_eq_true,
    Bool.not_eq_true'] at h
  refine ⟨h.1, fun hnullable => h.2.resolve_right ?_⟩
  rw [hnullable]
  exact Bool.noConfusion

/-- A rule, once the alternative that is due is known to take enough. -/
theorem covers_nonterm (ho : o.Fits g.productions) {r : RuleId} {rule : Rule T}
    {alternative : Alternative T} {word rest : List T} {pieces : Pieces T X}
    (hrule : g.rule? r = some rule) (hmem : alternative ∈ rule.alternatives)
    (hyields : g.Yields algebra alternative.expr word pieces) {after : Option T → Bool}
    (hfits : ∀ ahead, (Expr.nonterm r).fits o ahead (after ahead) = true)
    (hmode : after rest.head? = true ∨ ∀ r, o.nullable r = false)
    (ih : Covers (fun a => alternative.expr.attempt (g.matchList algebra) a) word rest pieces
      (o.follows r rest.head? = true)) :
    Covers (fun a => (Expr.nonterm r).attempt (g.matchList algebra) a) word rest
      (.ofValue (alternative.shape.value algebra r pieces)) (after rest.head? = true) := by
  have hin := Grammar.mem_rules_of_rule? hrule
  have hahead : after rest.head? = true →
      o.follows r rest.head? = true ∧ (o.nullable r = true → rest.head?.isSome = true) :=
    follows_of_fits (hfits rest.head?)
  have hempty : word = [] → o.nullable r = true := fun hword =>
    ho.ranked.mayBeEmpty_of_yields (.nonterm hrule hmem hyields) hword
  -- Where nothing is taken it is known what stands behind, and something does.
  have hbehind : word = [] → after rest.head? = true := by
    intro hword
    refine hmode.resolve_right fun hnone => ?_
    rw [hnone r] at hempty
    exact Bool.noConfusion (hempty hword)
  have hdue : word ≠ [] ∨ o.follows r rest.head? = true := by
    by_cases hword : word = []
    · exact Or.inr (hahead (hbehind hword)).1
    · exact Or.inl hword
  have hne : word ++ rest ≠ [] := by
    intro hnil
    obtain ⟨hword, hrest⟩ := List.append_eq_nil_iff.mp hnil
    have hsome := (hahead (hbehind hword)).2 (hempty hword)
    rw [hrest] at hsome
    cases hsome
  obtain ⟨before, behind, hsplit⟩ := List.append_of_mem hmem
  have hrefuses : ∀ x ∈ before,
      Refuses (fun a => x.expr.attempt (g.matchList algebra) a) (word ++ rest) := by
    intro x hx
    have hbodies : rule.alternatives.map Alternative.expr =
        before.map Alternative.expr ++ alternative.expr :: behind.map Alternative.expr := by
      rw [hsplit, List.map_append, List.map_cons]
    refine ho.refuses_before hyields hdue (behind.map Alternative.expr)
      (before.map Alternative.expr) ?_ (fun ahead => ?_) x.expr (List.mem_map_of_mem hx)
    · intro e he
      obtain ⟨y, hy, rfl⟩ := List.mem_map.mp he
      intro r' hr'
      refine Grammar.mem_ids_of_references hin ?_ hr'
      rw [hsplit]
      exact List.mem_append_left _ hy
    · rw [← hbodies, ← Grammar.id_of_rule? hrule]
      exact ((ho.of_mem_rules hin).2.2 ahead).2
  obtain ⟨more, rest', pieces', hrest, htakes, hexact⟩ := ih
  refine ⟨more, rest', .ofValue (alternative.shape.value algebra r pieces'), hrest,
    Expr.takes_nonterm hne ?_, fun hafter => ?_⟩
  · rw [ho.ranked.run_eq hne hrule, hsplit, attemptAlternatives_of_refuses hrefuses htakes]
  · obtain ⟨hmore, hpieces⟩ := hexact (hahead hafter).1
    exact ⟨hmore, by rw [hpieces]⟩

/-- A choice does not refuse where one of its items matches. -/
theorem not_refuses_choice (ho : o.Fits g.productions) {items : List (Expr T)}
    (hrefs : ∀ x ∈ items, x.references ⊆ g.ids) {item : Expr T} (hmem : item ∈ items)
    {tokens rest : List T} {pieces : Pieces T X}
    (htakes : Takes (fun a => item.attempt (g.matchList algebra) a) tokens pieces rest) :
    ¬ Refuses (fun a => (Expr.choice items).attempt (g.matchList algebra) a) tokens := by
  induction items with
  | nil => cases hmem
  | cons first items ih =>
    obtain ⟨word, rest', pieces', -, -, hfirst⟩ | hfirst :=
      ho.ranked.attempt_decides (hrefs first List.mem_cons_self) tokens
    · have hnone : ∀ x ∈ ([] : List (Expr T)),
          Refuses (fun a => x.attempt (g.matchList algebra) a) tokens := by simp
      exact (Takes.choice_of_refuses hnone hfirst).not_refuses
    · rcases List.mem_cons.mp hmem with rfl | hmem
      · exact absurd hfirst htakes.not_refuses
      · rintro ⟨why, hrefuses⟩
        refine ih (fun x hx => hrefs x (List.mem_cons_of_mem first hx)) hmem ⟨why, fun p => ?_⟩
        have hchoice := hrefuses p
        simp only [Expr.attempt] at hchoice ⊢
        rwa [Expr.attemptFirst_of_refuses hfirst] at hchoice

/-- A choice, once the item that is due is known to take enough. -/
theorem covers_choice (ho : o.Fits g.productions) {items : List (Expr T)} {item : Expr T}
    {word rest : List T} {pieces : Pieces T X} (hmem : item ∈ items)
    (he : (Expr.choice items).references ⊆ g.ids)
    (hyields : g.Yields algebra item word pieces) {after : Option T → Bool}
    (hfits : ∀ ahead, (Expr.choice items).fits o ahead (after ahead) = true)
    (ih : Covers (fun a => item.attempt (g.matchList algebra) a) word rest pieces
      (after rest.head? = true)) :
    Covers (fun a => (Expr.choice items).attempt (g.matchList algebra) a) word rest pieces
      (after rest.head? = true) := by
  obtain ⟨before, behind, rfl⟩ := List.append_of_mem hmem
  have hrefs : ∀ x ∈ before ++ item :: behind, x.references ⊆ g.ids := by
    intro x hx r hr
    refine he ?_
    rw [Expr.references, Expr.referencesOfAll_eq_flatMap]
    exact List.mem_flatMap.mpr ⟨x, hx, hr⟩
  obtain ⟨more, rest', pieces', hrest, htakes, hexact⟩ := ih
  by_cases hdue : word ≠ [] ∨ after rest.head? = true
  · have hrefuses := ho.refuses_before hyields hdue behind before
      (fun x hx => hrefs x (List.mem_append_left _ hx)) hfits
    exact ⟨more, rest', pieces', hrest, Takes.choice_of_refuses hrefuses htakes, hexact⟩
  · -- An earlier item may match here, and then takes no less than nothing.
    rw [not_or, not_not] at hdue
    obtain ⟨rfl, hafter⟩ := hdue
    exact ho.covers_of_not_refuses he hafter (ho.not_refuses_choice hrefs hmem htakes)

/-- **One step takes enough and then another.**  If the first is not due to stop behind its word,
then nothing is left of the word of the second, and any way to go on will do. -/
theorem covers_append {item rest' all : ListStep T X} {front back rest : List T}
    {first second : Pieces T X} (due : Option T → Bool) {after : Option T → Bool} {free : Prop}
    (hjoin : ∀ {tokens mid rest : List T} {p q : Pieces T X},
      front.length + mid.length ≤ tokens.length → Takes item tokens p mid → Takes rest' mid q rest →
        Takes all tokens (p ++ q) rest)
    (hdue : back ≠ [] ∨ after rest.head? = true → due (back ++ rest).head? = true)
    (hmode : after rest.head? = true ∨ free)
    (ihitem : ∀ rest : List T, due rest.head? = true ∨ free →
      Covers item front rest first (due rest.head? = true))
    (ihrest : ∀ rest : List T, after rest.head? = true ∨ free →
      Covers rest' back rest second (after rest.head? = true)) :
    Covers all (front ++ back) rest (first ++ second) (after rest.head? = true) := by
  by_cases hknown : back ≠ [] ∨ after rest.head? = true
  · obtain ⟨more, mid, pieces, hmid, htakes, hexact⟩ := ihitem (back ++ rest) (Or.inl (hdue hknown))
    obtain ⟨rfl, rfl⟩ := hexact (hdue hknown)
    rw [List.nil_append] at hmid
    subst hmid
    obtain ⟨more, end', pieces', hmore, hnext, hexact'⟩ := ihrest rest hmode
    refine ⟨more, end', pieces ++ pieces', hmore, ?_, fun hafter => ?_⟩
    · rw [List.append_assoc]
      refine hjoin ?_ htakes hnext
      rw [← List.length_append]
    · obtain ⟨hnil, hpieces⟩ := hexact' hafter
      exact ⟨hnil, by rw [hpieces]⟩
  · rw [not_or, not_not] at hknown
    obtain ⟨rfl, hafter⟩ := hknown
    have hfree := hmode.resolve_left hafter
    obtain ⟨more, mid, pieces, rfl, htakes, -⟩ := ihitem rest (Or.inr hfree)
    obtain ⟨more', end', pieces', rfl, hnext, -⟩ := ihrest mid (Or.inr hfree)
    rw [List.nil_append] at hnext
    refine ⟨more ++ more', end', pieces ++ pieces', ?_, ?_, fun h => absurd h hafter⟩
    · rw [List.append_assoc]
    · rw [List.append_nil]
      refine hjoin ?_ htakes hnext
      simp only [List.length_append]
      omega

/-- What the body of a repetition or of an option must satisfy at the token ahead. -/
theorem of_fits_body {body : Expr T} {ahead : Option T} {after inside : Bool}
    (h : (!body.mayBeEmpty o.nullable && !(after && body.startsAt o ahead) &&
      body.fits o ahead inside) = true) :
    body.mayBeEmpty o.nullable = false ∧ (after = true → body.startsAt o ahead = false) ∧
      body.fits o ahead inside = true := by
  rw [Bool.and_eq_true, Bool.and_eq_true, Bool.not_eq_true', Bool.not_eq_true',
    Bool.and_eq_false_iff] at h
  refine ⟨h.1.1, fun hafter => h.1.2.resolve_left ?_, h.2⟩
  rw [hafter]
  exact Bool.noConfusion

/-- A body that may not stand here is refused. -/
theorem refuses_body (ho : o.Fits g.productions) {body : Expr T} (hbody : body.references ⊆ g.ids)
    {rest : List T} {after inside : Bool}
    (h : (!body.mayBeEmpty o.nullable && !(after && body.startsAt o rest.head?) &&
      body.fits o rest.head? inside) = true) (hafter : after = true) :
    Refuses (fun a => body.attempt (g.matchList algebra) a) rest := by
  obtain ⟨hempty, hstarts, -⟩ := of_fits_body h
  exact ho.refuses_of_not_startsAt hbody hempty (hstarts hafter)

/-- A repetition does not refuse if no round has to be made. -/
theorem not_refuses_rep_zero (body : Expr T) (dispatch : ListDispatch T X) (tokens : List T) :
    ¬ Refuses (fun a => (Expr.rep 0 body).attempt dispatch a) tokens := by
  rintro ⟨why, hrefuses⟩
  have hself := hrefuses (Production.start RuleId.start .empty)
  simp only [Expr.attempt, Attempt.rounds, Attempt.orRestore] at hself
  have hmatch : (Attempt.roundsWhileAny (fun a => body.attempt dispatch a)
      ⟨tokens, Production.start RuleId.start .empty, ()⟩).1.isNoMatch = false :=
    Attempt.isNoMatch_roundsWhileAny _
  rw [hself] at hmatch
  cases hmatch

/-- An option never refuses. -/
theorem not_refuses_opt (body : Expr T) (dispatch : ListDispatch T X) (tokens : List T) :
    ¬ Refuses (fun a => (Expr.opt body).attempt dispatch a) tokens := by
  rintro ⟨why, hrefuses⟩
  have hself := congrArg Prod.fst (hrefuses (Production.start RuleId.start .empty))
  simp only [Expr.attempt] at hself
  split at hself <;> cases hself

/-- A repetition stops where it is due to. -/
theorem covers_rep_zero (ho : o.Fits g.productions) {body : Expr T} {after : Option T → Bool}
    (he : (Expr.rep 0 body).references ⊆ g.ids)
    (hfits : ∀ ahead, (Expr.rep 0 body).fits o ahead (after ahead) = true) (rest : List T) :
    Covers (fun a => (Expr.rep 0 body).attempt (g.matchList algebra) a) [] rest .nil
      (after rest.head? = true) := by
  by_cases hafter : after rest.head? = true
  · have hbody : body.references ⊆ g.ids := he
    have hrefuses : Refuses (fun a => body.attempt (g.matchList algebra) a) rest :=
      ho.refuses_body hbody (hfits rest.head?) hafter
    exact (takes_rep_zero_iff.mpr hrefuses.roundsWhileAny).covers
  · exact ho.covers_of_not_refuses he hafter (not_refuses_rep_zero body _ rest)

/-- An option matches nothing where it is due to. -/
theorem covers_opt_none (ho : o.Fits g.productions) {body : Expr T} {after : Option T → Bool}
    (he : (Expr.opt body).references ⊆ g.ids)
    (hfits : ∀ ahead, (Expr.opt body).fits o ahead (after ahead) = true) (rest : List T) :
    Covers (fun a => (Expr.opt body).attempt (g.matchList algebra) a) [] rest .nil
      (after rest.head? = true) := by
  by_cases hafter : after rest.head? = true
  · have hbody : body.references ⊆ g.ids := he
    obtain ⟨why, hrefuses⟩ : Refuses (fun a => body.attempt (g.matchList algebra) a) rest :=
      ho.refuses_body hbody (hfits rest.head?) hafter
    refine Takes.covers fun p => ?_
    have hrefuses := hrefuses p
    dsimp only at hrefuses ⊢
    rw [List.nil_append, Expr.attempt, hrefuses, Production.record_nil]
  · exact ho.covers_of_not_refuses he hafter (not_refuses_opt body _ rest)

/-- **An expression takes at least what it stands for**, and not more if the token behind may follow
it.  If it may not, then at least no rule may be empty: the parser does not start a rule at the end
of the tokens. -/
theorem takes_of_yields (ho : o.Fits g.productions) {e : Expr T} {word : List T}
    {pieces : Pieces T X} (h : g.Yields algebra e word pieces) :
    ∀ after : Option T → Bool, e.references ⊆ g.ids →
      (∀ ahead, e.fits o ahead (after ahead) = true) →
      ∀ rest : List T, after rest.head? = true ∨ (∀ r, o.nullable r = false) →
        Covers (fun a => e.attempt (g.matchList algebra) a) word rest pieces
          (after rest.head? = true) := by
  induction h with
  | empty =>
    intro after _ _ rest _
    refine Takes.covers ?_
    simp only [Expr.attempt]
    exact takes_self rest
  | @term accepts token haccepts =>
    intro after _ _ rest _
    refine Takes.covers fun p => ?_
    simp only [Expr.attempt, Expr.attemptTerm, List.singleton_append, TokenStream.peek_list,
      List.head?_cons, if_pos haccepts, TokenStream.advance_list, List.tail_cons]
    rw [Production.addTerm_eq_record]
  | @nonterm r rule alternative word pieces hrule hmem hyields ih =>
    intro after _ hfits rest hmode
    have hin := Grammar.mem_rules_of_rule? hrule
    refine ho.covers_nonterm hrule hmem hyields hfits hmode (ih (o.follows r) ?_ (fun ahead => ?_)
      rest ?_)
    · exact fun r' hr' => Grammar.mem_ids_of_references hin hmem hr'
    · refine Expr.fits_of_mem (List.mem_map_of_mem hmem) ?_
      rw [← Grammar.id_of_rule? hrule]
      exact ((ho.of_mem_rules hin).2.2 ahead).2
    · rcases hmode with hafter | hnone
      · exact Or.inl (follows_of_fits (hfits rest.head?) hafter).1
      · exact Or.inr hnone
  | seqNil =>
    intro after _ _ rest _
    exact Takes.seq_nil.covers
  | @seqCons item items front back first second hitem hitems ihitem ihitems =>
    intro after he hfits rest hmode
    have hall : ∀ ahead, Expr.fitsAll o ahead (after ahead) (item :: items) = true := hfits
    simp only [Expr.fitsAll, Bool.and_eq_true] at hall
    have hrefs := List.append_subset.mp he
    refine covers_append _ (fun _ => Takes.seq_cons) (fun hdue => ?_) hmode
      (ihitem _ hrefs.1 fun ahead => (hall ahead).1) (ihitems _ hrefs.2 fun ahead => (hall ahead).2)
    by_cases hback : back = []
    · subst hback
      have hempty : Expr.allMayBeEmpty o.nullable items = true :=
        ho.ranked.mayBeEmpty_of_yields hitems rfl
      have hafter : after ([] ++ rest).head? = true := hdue.resolve_left fun h => h rfl
      rw [hempty, hafter, Bool.and_true, Bool.or_true]
    · have hstarts : Expr.startsAll o back.head? items = true :=
        ho.startsAt_of_yields hitems hback
      rw [List.head?_append_of_ne_nil _ hback, hstarts, Bool.true_or]
  | @choice item items word pieces hmem hyields ih =>
    intro after he hfits rest hmode
    refine ho.covers_choice hmem he hyields hfits (ih after (fun r hr => he ?_)
      (fun ahead => Expr.fits_of_mem hmem (hfits ahead)) rest hmode)
    rw [Expr.references, Expr.referencesOfAll_eq_flatMap]
    exact List.mem_flatMap.mpr ⟨item, hmem, hr⟩
  | repStop =>
    intro after he hfits rest _
    exact ho.covers_rep_zero he hfits rest
  | @repMore least body front back first second hbody hrest ihbody ihrest =>
    intro after he hfits rest hmode
    have hfront : 0 < front.length := by
      refine List.length_pos_iff.mpr fun hnil => ?_
      obtain ⟨hempty, -, -⟩ := of_fits_body (hfits none)
      rw [ho.ranked.mayBeEmpty_of_yields hbody hnil] at hempty
      cases hempty
    refine covers_append (fun ahead => after ahead || body.startsAt o ahead)
      (fun hle htakes => htakes.rep_more (by omega)) (fun hdue => ?_) hmode
      (ihbody _ he fun ahead => (of_fits_body (hfits ahead)).2.2) (ihrest after he hfits)
    by_cases hback : back = []
    · subst hback
      have hafter : after ([] ++ rest).head? = true := hdue.resolve_left fun h => h rfl
      rw [hafter, Bool.true_or]
    · have hstarts : (Expr.rep (least - 1) body).startsAt o back.head? = true :=
        ho.startsAt_of_yields hrest hback
      rw [List.head?_append_of_ne_nil _ hback, Bool.or_eq_true]
      exact Or.inr hstarts
  | optNone =>
    intro after he hfits rest _
    exact ho.covers_opt_none he hfits rest
  | @optSome body word pieces _ ih =>
    intro after he hfits rest hmode
    obtain ⟨more, rest', pieces', hrest, htakes, hexact⟩ :=
      ih after he (fun ahead => (of_fits_body (hfits ahead)).2.2) rest hmode
    refine ⟨more, rest', pieces', hrest, fun p => ?_, hexact⟩
    have hbody := htakes p
    dsimp only at hbody ⊢
    rw [Expr.attempt, hbody]

end Outlook.Fits

/-! ## 3.  A rule takes the longest word -/

/-- A nonterminal that takes something was answered by its rule. -/
theorem Takes.reply {dispatch : ListDispatch T X} {r : RuleId} {tokens rest : List T}
    {pieces : Pieces T X}
    (h : Takes (fun a => (Expr.nonterm r).attempt dispatch a) tokens pieces rest) :
    ∃ value, pieces.values = [value] ∧ dispatch r () tokens = ⟨.matched value, (), rest⟩ := by
  have hlist := h (Production.start r .nontermList)
  simp only [Expr.attempt, Expr.attemptNonterm] at hlist
  split at hlist
  · cases congrArg Prod.fst hlist
  · rcases hreply : dispatch r () tokens with ⟨outcome, world, stream⟩
    rw [hreply] at hlist
    cases outcome with
    | matched value =>
      have hstream : stream = rest := congrArg (fun r => r.2.stream) hlist
      have hvalues : ((Production.start r .nontermList).addNonterm value).nonterms.toList =
          ((Production.start r .nontermList).record pieces).nonterms.toList :=
        congrArg (fun r => r.2.pieces.nonterms.toList) hlist
      refine ⟨value, ?_, by rw [hstream]⟩
      simpa [Production.addNonterm_eq_record, Production.record, Production.start,
        Shape.keepsNonterms, Pieces.ofValue] using hvalues.symm
    | noMatch why => cases congrArg Prod.fst hlist
    | failed why => cases congrArg Prod.fst hlist

namespace Outlook.Fits

variable {g : Grammar T} {algebra : Reduction T X → X} {o : Outlook T} {r : RuleId}

theorem not_derives_nil (ho : o.Fits g.productions) (hempty : o.nullable r = false) :
    ¬ Expr.Derives g.productions (.nonterm r) [] := by
  intro h
  obtain ⟨pieces, hyields⟩ := Grammar.exists_yields (fun _ : Reduction T Unit => ()) h
  have hnullable : o.nullable r = true := ho.ranked.mayBeEmpty_of_yields hyields rfl
  rw [hempty] at hnullable
  cases hnullable

theorem covers_rule (ho : o.Fits g.productions) (hr : r ∈ g.ids) (hempty : o.nullable r = false)
    {word rest : List T} {pieces : Pieces T X}
    (h : g.Yields algebra (.nonterm r) word pieces)
    (hmode : o.follows r rest.head? = true ∨ ∀ r, o.nullable r = false) :
    Covers (fun a => (Expr.nonterm r).attempt (g.matchList algebra) a) word rest pieces
      (o.follows r rest.head? = true) := by
  refine ho.takes_of_yields h (o.follows r) ?_ (fun ahead => ?_) rest hmode
  · intro r' hr'
    rwa [List.mem_singleton.mp hr']
  · rw [Expr.fits, hempty, Bool.not_false, Bool.or_true, Bool.and_true, Bool.not_or_self]

/-- **A word is matched with its value**, if the token behind may follow the rule. -/
theorem matchList_eq (ho : o.Fits g.productions) (hr : r ∈ g.ids) (hempty : o.nullable r = false)
    {word rest : List T} {value : X} (h : g.Yields algebra (.nonterm r) word (.ofValue value))
    (hfollows : o.follows r rest.head? = true) :
    g.matchList algebra r () (word ++ rest) = ⟨.matched value, (), rest⟩ := by
  obtain ⟨more, rest', pieces, hrest, htakes, hexact⟩ :=
    ho.covers_rule hr hempty h (Or.inl hfollows)
  obtain ⟨rfl, rfl⟩ := hexact hfollows
  rw [List.nil_append] at hrest
  subst hrest
  obtain ⟨value', hvalues, hreply⟩ := htakes.reply
  have hvalue : [value] = [value'] := hvalues
  rw [hreply, (List.cons.inj hvalue).1]

/-- A word has one value, if there is always something that may follow the rule. -/
theorem value_unique (ho : o.Fits g.productions) (hr : r ∈ g.ids) (hempty : o.nullable r = false)
    {word : List T} {value value' : X} (hfollows : o.follows r none = true)
    (h : g.Yields algebra (.nonterm r) word (.ofValue value))
    (h' : g.Yields algebra (.nonterm r) word (.ofValue value')) : value = value' := by
  have hmatch : ∀ {value}, g.Yields algebra (.nonterm r) word (.ofValue value) →
      g.matchList algebra r () (word ++ []) = ⟨.matched value, (), []⟩ :=
    fun h => ho.matchList_eq hr hempty h hfollows
  have hsame := (hmatch h).symm.trans (hmatch h')
  cases hsame
  rfl

/-- **A rule takes the longest word that it stands for**, and does not match if there is none.  For
this nothing may be empty in the grammar, or every token may follow the rule. -/
theorem matchList_longest (ho : o.Fits g.productions) (hr : r ∈ g.ids)
    (hempty : o.nullable r = false)
    (hmode : (∀ ahead, o.follows r ahead = true) ∨ ∀ r, o.nullable r = false) {tokens : List T}
    (hne : tokens ≠ []) :
    (∃ word rest value, tokens = word ++ rest ∧
        g.Yields algebra (.nonterm r) word (.ofValue value) ∧
        g.matchList algebra r () tokens = ⟨.matched value, (), rest⟩ ∧
        ∀ word', word' <+: tokens → Expr.Derives g.productions (.nonterm r) word' →
          word'.length ≤ word.length) ∨
      (∃ why, g.matchList algebra r () tokens = ⟨.noMatch why, (), tokens⟩) ∧
        ∀ word', word' <+: tokens → ¬ Expr.Derives g.productions (.nonterm r) word' := by
  have htakes : ∀ word', word' <+: tokens → Expr.Derives g.productions (.nonterm r) word' →
      ∃ rest value, g.matchList algebra r () tokens = ⟨.matched value, (), rest⟩ ∧
        word'.length + rest.length ≤ tokens.length := by
    rintro word' ⟨rest, rfl⟩ hderives
    obtain ⟨pieces, hyields⟩ := Grammar.exists_yields algebra hderives
    have hmode' : o.follows r rest.head? = true ∨ ∀ r, o.nullable r = false := by
      rcases hmode with hall | hnone
      · exact Or.inl (hall _)
      · exact Or.inr hnone
    obtain ⟨more, rest', pieces', rfl, htakes, -⟩ := ho.covers_rule hr hempty hyields hmode'
    obtain ⟨value, -, hreply⟩ := htakes.reply
    refine ⟨rest', value, hreply, ?_⟩
    simp only [List.length_append]
    omega
  obtain ⟨word, rest, value, htokens, hyields, hreply⟩ | ⟨why, hreply⟩ :=
    ho.ranked.run_answers hne hr
  · refine Or.inl ⟨word, rest, value, htokens, hyields, hreply, fun word' hpre hderives => ?_⟩
    obtain ⟨rest', value', hreply', hlength⟩ := htakes word' hpre hderives
    have hrest : rest = rest' := by
      rw [hreply] at hreply'
      exact congrArg Reply.stream hreply'
    rw [htokens, List.length_append, hrest] at hlength
    omega
  · refine Or.inr ⟨⟨why, hreply⟩, fun word' hpre hderives => ?_⟩
    obtain ⟨rest', value', hreply', -⟩ := htakes word' hpre hderives
    rw [hreply] at hreply'
    cases congrArg Reply.outcome hreply'

/-- **At most one word fits**, if every token may follow the rule. -/
theorem prefix_unique (ho : o.Fits g.productions) (hr : r ∈ g.ids) (hempty : o.nullable r = false)
    (hfollows : ∀ ahead, o.follows r ahead = true) {tokens word word' : List T}
    (hpre : word <+: tokens) (hpre' : word' <+: tokens)
    (h : Expr.Derives g.productions (.nonterm r) word)
    (h' : Expr.Derives g.productions (.nonterm r) word') : word = word' := by
  obtain ⟨rest, rfl⟩ := hpre
  obtain ⟨rest', htokens⟩ := hpre'
  obtain ⟨pieces, hyields⟩ := Grammar.exists_yields (fun _ : Reduction T Unit => ()) h
  obtain ⟨pieces', hyields'⟩ := Grammar.exists_yields (fun _ : Reduction T Unit => ()) h'
  obtain ⟨value, rfl⟩ := hyields.exists_value
  obtain ⟨value', rfl⟩ := hyields'.exists_value
  have hreply := ho.matchList_eq hr hempty hyields (hfollows rest.head?)
  have hreply' := ho.matchList_eq hr hempty hyields' (hfollows rest'.head?)
  rw [htokens, hreply] at hreply'
  have hrest : rest = rest' := congrArg Reply.stream hreply'
  rw [hrest] at htokens
  exact (List.append_cancel_right htokens).symm

end Outlook.Fits

end GrammarKit
