import GrammarKit.Proofs.Calc.Exactness
import GrammarKit.Proofs.Parsed

/-!
# Chains of numbers

Numbers with signs of addition, subtraction and multiplication between them are computed as everybody
would: products first, both kinds from left to right, and no result is rounded.  How such a chain is
grouped does not depend on what is grouped, so the grouping is a function of its own.  It is used on
integers, on integers with the results on the way to them, and on expressions with their lexemes.

A number below zero has no literal.  Its text is read as a sign in front of the literal of its absolute
value, and that is in range for all numbers of 32 bits but one: the least one can be computed, but it
cannot be written.

* `Calc.group`: a chain of operands, grouped by precedence; `Calc.group_induction`: what holds of it.
* `Calc.Link`, `Calc.chainText`: a chain of numbers, and how it is written.
* `Calc.evaluate_numbers`: a chain comes to its value, unless the least number is in it.
-/

namespace GrammarKit.Calc

/-! ## 1.  The number of a text -/

theorem fits_of_literal {text : String} {v : Int} (h : literal text = .ok v) : Fits v := by
  rw [literal] at h
  split at h
  · split at h
    · next hrange =>
      cases h
      exact Arith.inRange_iff.mp hrange
    · cases h
  · cases h

theorem fits_of_checked {op : String} {a v : Int} (h : checked op a = .ok v) : Fits v := by
  rw [Arith.checked_eq] at h
  split at h
  · next hfits =>
    cases h
    exact hfits
  · cases h

theorem fits_of_applyBinary {op : BinaryOp} {a b v : Int} (h : applyBinary op a b = .ok v) :
    Fits v := by
  cases op with
  | add | sub | mul => exact fits_of_checked h
  | intDiv =>
    rw [applyBinary] at h
    split at h
    · cases h
    · exact fits_of_checked h
  | floatDiv | assign => cases h

/-- Whatever a node comes to is in range. -/
theorem fits_of_evalNode {arena : Arena} {height : Nat} {id : NodeId} {v : Int}
    (h : evalNode arena height id = .ok v) : Fits v := by
  induction height generalizing id v with
  | zero => cases h
  | succ height ih =>
    simp only [evalNode] at h
    split at h
    · cases h
    · exact fits_of_literal h
    · next op _ operand _ =>
      split at h
      · cases h
      · next a ha =>
        cases op with
        | plus =>
          cases h
          exact ih ha
        | minus => exact fits_of_checked h
    · split at h
      · cases h
      · split at h
        · cases h
        · exact fits_of_applyBinary h
    · cases h

theorem fits_of_evaluate {source : String} {v : Int} (h : evaluate source = .ok v) : Fits v := by
  rw [evaluate] at h
  split at h
  · cases h
  · exact fits_of_evalNode (of_mapError_eq_ok h)

/-! ## 2.  Grouping by precedence -/

section Grouping

variable {A B : Type}

/-- The products of a chain are put together, from left to right.  A chain of sums and differences is
left. -/
def products (apply : Operator → A → A → A) (first : A) :
    List (Operator × A) → A × List (Operator × A)
  | [] => (first, [])
  | (op, operand) :: links =>
    if op.precedence = 2 then products apply (apply op first operand) links
    else
      let rest := products apply operand links
      (first, (op, rest.1) :: rest.2)

/-- The chain is grouped: products first, then sums and differences, both from left to right. -/
def group (apply : Operator → A → A → A) (first : A) (links : List (Operator × A)) : A :=
  let sums := products apply first links
  sums.2.foldl (fun sum link => apply link.1 sum link.2) sums.1

variable {apply : Operator → A → A → A} {apply' : Operator → B → B → B}

theorem products_map {f : A → B} (hf : ∀ op a b, f (apply op a b) = apply' op (f a) (f b))
    (first : A) (links : List (Operator × A)) :
    products apply' (f first) (links.map fun link => (link.1, f link.2)) =
      (f (products apply first links).1,
        (products apply first links).2.map fun link => (link.1, f link.2)) := by
  induction links generalizing first with
  | nil => rfl
  | cons link links ih =>
    obtain ⟨op, operand⟩ := link
    rw [List.map_cons, products, products]
    by_cases htight : op.precedence = 2
    · rw [if_pos htight, if_pos htight, ← hf]
      exact ih _
    · rw [if_neg htight, if_neg htight, ih]
      rfl

/-- **Grouping does not look at the operands**, so it commutes with what is made of them. -/
theorem group_map {f : A → B} (hf : ∀ op a b, f (apply op a b) = apply' op (f a) (f b))
    (first : A) (links : List (Operator × A)) :
    group apply' (f first) (links.map fun link => (link.1, f link.2)) =
      f (group apply first links) := by
  have hfold : ∀ (sums : List (Operator × A)) (start : A),
      (sums.map fun link => (link.1, f link.2)).foldl (fun sum link => apply' link.1 sum link.2)
          (f start) =
        f (sums.foldl (fun sum link => apply link.1 sum link.2) start) := by
    intro sums
    induction sums with
    | nil => exact fun _ => rfl
    | cons link sums ih =>
      intro start
      rw [List.map_cons, List.foldl_cons, List.foldl_cons, ← hf]
      exact ih _
  rw [group, group, products_map hf]
  exact hfold _ _

section Levels

/-! What holds of a chain may depend on a level.  An operator asks its own level of what is on its left
and one level more of what is on its right, and has its own level itself. -/

variable {P : Nat → A → Prop} {Q : Operator → Prop} {first : A} {links : List (Operator × A)}
  (hlower : ∀ level a, P (level + 1) a → P level a)
  (hstep : ∀ op a b, Q op → P op.precedence a → P (op.precedence + 1) b →
    P op.precedence (apply op a b))

include hlower hstep

theorem products_induction (hfirst : P 2 first) (hlinks : ∀ link ∈ links, Q link.1 ∧ P 3 link.2) :
    P 2 (products apply first links).1 ∧
      ∀ link ∈ (products apply first links).2,
        (Q link.1 ∧ link.1.precedence = 1) ∧ P 2 link.2 := by
  induction links generalizing first with
  | nil => exact ⟨hfirst, fun link hlink => absurd hlink List.not_mem_nil⟩
  | cons link links ih =>
    obtain ⟨op, operand⟩ := link
    obtain ⟨⟨hop, hoperand⟩, hlinks⟩ := List.forall_mem_cons.mp hlinks
    rw [products]
    by_cases htight : op.precedence = 2
    · rw [if_pos htight]
      have hproduct := hstep op first operand hop
      rw [htight] at hproduct
      exact ih (hproduct hfirst hoperand) hlinks
    · rw [if_neg htight]
      have hloose : op.precedence = 1 := by cases op <;> first | rfl | exact absurd rfl htight
      obtain ⟨hproduct, hrest⟩ := ih (hlower 2 operand hoperand) hlinks
      exact ⟨hfirst, List.forall_mem_cons.mpr ⟨⟨⟨hop, hloose⟩, hproduct⟩, hrest⟩⟩

/-- **What holds of the operands holds of the chain.** -/
theorem group_induction (hfirst : P 3 first) (hlinks : ∀ link ∈ links, Q link.1 ∧ P 3 link.2) :
    P 1 (group apply first links) := by
  obtain ⟨hstart, hsums⟩ := products_induction hlower hstep (hlower 2 first hfirst) hlinks
  rw [group]
  refine List.foldlRecOn _ _ (hlower 1 _ hstart) fun sum hsum link hlink => ?_
  obtain ⟨⟨hop, hloose⟩, hlink⟩ := hsums link hlink
  have hnext := hstep link.1 sum link.2 hop
  rw [hloose] at hnext
  exact hnext hsum hlink

end Levels

section Joining

/-! Lists that are joined stay in order, however they are grouped. -/

variable (sign : Operator → List A) (first : List A)

theorem foldl_join (sums : List (Operator × List A)) :
    sums.foldl (fun front link => front ++ (sign link.1 ++ link.2)) first =
      first ++ sums.flatMap fun link => sign link.1 ++ link.2 := by
  induction sums generalizing first with
  | nil => exact (List.append_nil first).symm
  | cons link sums ih => rw [List.foldl_cons, ih, List.flatMap_cons, List.append_assoc]

theorem products_join (links : List (Operator × List A)) :
    let parts := products (fun op front back => front ++ (sign op ++ back)) first links
    (parts.1 ++ parts.2.flatMap fun link => sign link.1 ++ link.2) =
      first ++ links.flatMap fun link => sign link.1 ++ link.2 := by
  induction links generalizing first with
  | nil => rfl
  | cons link links ih =>
    obtain ⟨op, operand⟩ := link
    rw [products]
    by_cases htight : op.precedence = 2
    · rw [if_pos htight]
      refine (ih _).trans ?_
      rw [List.flatMap_cons, List.append_assoc]
    · rw [if_neg htight]
      simp only [List.flatMap_cons, List.append_assoc]
      rw [ih operand]

theorem group_join (links : List (Operator × List A)) :
    group (fun op front back => front ++ (sign op ++ back)) first links =
      first ++ links.flatMap fun link => sign link.1 ++ link.2 := by
  rw [group, foldl_join]
  exact products_join sign first links

end Joining

end Grouping

/-! ## 3.  Numbers as they are written -/

/-- The decimal digits of a number. -/
def Numeral.ofNat (n : Nat) : Numeral where
  digits := Nat.toDigits 10 n
  isNumeral := by
    rw [Decimal.isNumeral, Bool.and_eq_true, Bool.not_eq_true', List.isEmpty_eq_false_iff,
      List.all_eq_true]
    refine ⟨Nat.toDigits_ne_nil, fun c hc => ?_⟩
    have hdigit : c.isDigit = true := Nat.isDigit_of_mem_toDigits (by decide) (by decide) hc
    rw [Char.isDigit, Bool.and_eq_true] at hdigit
    rw [Decimal.isDigit, Bool.and_eq_true]
    exact hdigit

theorem Numeral.ofDigitChars_ofNat (n : Nat) :
    Nat.ofDigitChars 10 (Numeral.ofNat n).digits 0 = n := Nat.ofDigitChars_ten_toDigits

/-- The expression that the text of a number is read as: below zero a sign in front of a literal. -/
def Arith.ofInt (v : Int) : Arith :=
  if 0 ≤ v then .literal (.ofNat v.toNat) else .unary .minus (.literal (.ofNat (-v).toNat))

/-- The lexemes of the text of a number. -/
def numberLexemes (v : Int) : List Lexeme :=
  if 0 ≤ v then [.number (.ofNat v.toNat)] else [.sign .minus, .number (.ofNat (-v).toNat)]

theorem value_ofInt (v : Int) : (Arith.ofInt v).value = v := by
  rw [Arith.ofInt]
  by_cases hsign : 0 ≤ v
  · rw [if_pos hsign, Arith.value, Numeral.ofDigitChars_ofNat]
    exact Int.toNat_of_nonneg hsign
  · rw [if_neg hsign, Arith.value, Arith.value, Numeral.ofDigitChars_ofNat]
    omega

/-- Of the numbers in range only the least is refused, for its literal is out of range. -/
theorem faults_ofInt {v : Int} (h : Fits v) :
    (Arith.ofInt v).faults = if v = -2 ^ 31 then [.invalidNumber "2147483648"] else [] := by
  obtain ⟨hlow, hhigh⟩ := h
  rw [Arith.ofInt]
  by_cases hsign : 0 ≤ v
  · rw [if_pos hsign, if_neg (by omega), Arith.faults, Arith.ownFaults, Arith.value,
      Numeral.ofDigitChars_ofNat, if_pos (by omega)]
  · rw [if_neg hsign]
    simp only [Arith.faults, Arith.ownFaults, Arith.value, Numeral.ofDigitChars_ofNat]
    have hnegated : -2 ^ 31 ≤ -((-v).toNat : Int) ∧ -((-v).toNat : Int) < 2 ^ 31 := by omega
    rw [if_pos hnegated, List.append_nil]
    by_cases hleast : v = -2 ^ 31
    · subst hleast
      rfl
    · rw [if_neg hleast, if_pos (by omega)]

theorem prints_ofInt (level : Nat) (v : Int) : Prints level (.ofInt v) (numberLexemes v) := by
  rw [Arith.ofInt, numberLexemes]
  by_cases hsign : 0 ≤ v
  · rw [if_pos hsign, if_pos hsign]
    exact .literal level _
  · rw [if_neg hsign, if_neg hsign]
    exact .unary level .minus (.literal 3 _)

theorem Spaced.number {lexemes : List Lexeme} {chars : List Char} (n : Nat) (v : Int)
    (h : Spaced lexemes chars) :
    Spaced (numberLexemes v ++ lexemes)
      (List.replicate n ' ' ++ ((toString v).toList ++ chars)) := by
  rw [numberLexemes, Int.toString_eq_repr, Int.repr_eq_if]
  by_cases hsign : 0 ≤ v
  · rw [if_pos hsign, if_pos hsign, Nat.toList_repr]
    exact .cons n (.number (.ofNat v.toNat)) h
  · rw [if_neg hsign, if_neg hsign, String.toList_append, Nat.toList_repr]
    exact .cons n (.sign .minus) (.cons 0 (.number (.ofNat (-v).toNat)) h)

/-! ## 4.  Chains -/

/-- A further number of a chain, with the operator in front of it and the spaces around that. -/
structure Link where
  /-- The operator. -/
  op : Operator
  op_ne_div : op ≠ .div
  /-- The number. -/
  number : Int
  /-- How many spaces there are before the operator. -/
  before : Nat
  /-- How many spaces there are behind the operator. -/
  behind : Nat

/-- The numbers of a chain. -/
def numbers (first : Int) (links : List Link) : List Int := first :: links.map Link.number

/-- The text of a chain. -/
def chainText (first : Int) (links : List Link) : String :=
  String.ofList ((toString first).toList ++ links.flatMap fun link =>
    List.replicate link.before ' ' ++ link.op.sign.char ::
      (List.replicate link.behind ' ' ++ (toString link.number).toList))

/-- What an operator means among all integers. -/
def Operator.apply : Operator → Int → Int → Int
  | .add, a, b => a + b
  | .sub, a, b => a - b
  | .mul, a, b => a * b
  | .div, a, b => a.tdiv b

/-- The value of a chain among all integers. -/
def chainValue (first : Int) (links : List Link) : Int :=
  group Operator.apply first (links.map fun link => (link.op, link.number))

/-- An operator between two integers that come with the results on the way to them. -/
def applyRecording (op : Operator) (a b : Int × List Int) : Int × List Int :=
  (op.apply a.1 b.1, a.2 ++ (b.2 ++ [op.apply a.1 b.1]))

/-- The results of all operators of a chain among all integers. -/
def chainResults (first : Int) (links : List Link) : List Int :=
  (group applyRecording (first, []) (links.map fun link => (link.op, link.number, []))).2

/-- The expression that a chain stands for. -/
def chainArith (first : Int) (links : List Link) : Arith :=
  group .binary (.ofInt first) (links.map fun link => (link.op, .ofInt link.number))

namespace Arith

theorem value_binary (op : Operator) (left right : Arith) :
    (Arith.binary op left right).value = op.apply left.value right.value := by
  cases op <;> rfl

/-- The results of the operators between two operands. -/
def results : Arith → List Int
  | .literal _ => []
  | .unary _ _ => []
  | .binary op left right =>
    left.results ++ (right.results ++ [(Arith.binary op left right).value])

/-- What goes wrong in what no operator joins. -/
def outerFaults : Arith → List EvalError
  | .literal n => (Arith.literal n).faults
  | .unary op operand => (Arith.unary op operand).faults
  | .binary _ left right => left.outerFaults ++ right.outerFaults

theorem results_ofInt (v : Int) : (ofInt v).results = [] := by
  rw [ofInt]
  split <;> rfl

theorem outerFaults_ofInt (v : Int) : (ofInt v).outerFaults = (ofInt v).faults := by
  rw [ofInt]
  split <;> rfl

/-- The operators of a chain do nothing wrong if their results are in range. -/
theorem faults_binary_of_fits {op : Operator} (hop : op ≠ .div) {left right : Arith}
    (h : Fits (Arith.binary op left right).value) :
    (Arith.binary op left right).faults = left.faults ++ right.faults := by
  have hrange : -2 ^ 31 ≤ (Arith.binary op left right).value ∧
      (Arith.binary op left right).value < 2 ^ 31 := h
  rw [faults, ownFaults, if_neg fun hzero => hop hzero.1, if_pos hrange, List.append_nil]

end Arith

variable (first : Int) (links : List Link)

theorem value_chainArith : (chainArith first links).value = chainValue first links := by
  rw [chainArith, ← group_map Arith.value_binary, List.map_map, value_ofInt, chainValue]
  simp only [Function.comp_def, value_ofInt]

theorem results_chainArith : (chainArith first links).results = chainResults first links := by
  have hrecording : ∀ op left right,
      ((Arith.binary op left right).value, (Arith.binary op left right).results) =
        applyRecording op (left.value, left.results) (right.value, right.results) := by
    intro op left right
    rw [applyRecording, Arith.results, Arith.value_binary]
  have hpair := group_map (f := fun t : Arith => (t.value, t.results)) hrecording (.ofInt first)
    (links.map fun link => (link.op, .ofInt link.number))
  rw [List.map_map] at hpair
  simp only [Function.comp_def, value_ofInt, Arith.results_ofInt] at hpair
  exact (congrArg Prod.snd hpair).symm

theorem outerFaults_chainArith :
    (chainArith first links).outerFaults =
      (numbers first links).flatMap fun v => (Arith.ofInt v).faults := by
  let join (_ : Operator) (front back : List EvalError) : List EvalError := front ++ ([] ++ back)
  have hjoin : ∀ op left right, (Arith.binary op left right).outerFaults =
      join op left.outerFaults right.outerFaults := fun _ _ _ => rfl
  rw [chainArith, ← group_map hjoin, group_join fun _ => [], List.map_map, numbers,
    List.flatMap_cons, List.flatMap_map, List.flatMap_map]
  simp only [Function.comp_def, Arith.outerFaults_ofInt, List.nil_append]

/-- If all results are in range, nothing goes wrong but in the numbers. -/
theorem faults_chainArith (h : ∀ v ∈ chainResults first links, Fits v) :
    (chainArith first links).faults =
      (numbers first links).flatMap fun v => (Arith.ofInt v).faults := by
  have hfaults : (∀ v ∈ (chainArith first links).results, Fits v) →
      (chainArith first links).faults = (chainArith first links).outerFaults := by
    refine group_induction (P := fun _ (t : Arith) => (∀ v ∈ t.results, Fits v) →
      t.faults = t.outerFaults) (Q := fun op => op ≠ .div) (fun _ _ h => h) ?_ ?_ ?_
    · intro op left right hop hleft hright hresults
      rw [Arith.results] at hresults
      obtain ⟨hleft', hresults⟩ := List.forall_mem_append.mp hresults
      obtain ⟨hright', hown⟩ := List.forall_mem_append.mp hresults
      rw [Arith.faults_binary_of_fits hop (List.forall_mem_singleton.mp hown), hleft hleft',
        hright hright']
      rfl
    · exact fun _ => (Arith.outerFaults_ofInt first).symm
    · intro link hlink
      obtain ⟨link, -, rfl⟩ := List.mem_map.mp hlink
      exact ⟨link.op_ne_div, fun _ => (Arith.outerFaults_ofInt link.number).symm⟩
  rw [results_chainArith, outerFaults_chainArith] at hfaults
  exact hfaults h

/-- The lexemes of a chain. -/
def chainLexemes (first : Int) (links : List Link) : List Lexeme :=
  numberLexemes first ++ links.flatMap fun link =>
    .sign link.op.sign :: numberLexemes link.number

theorem Prints.lower {level : Nat} {t : Arith} {lexemes : List Lexeme}
    (h : Prints (level + 1) t lexemes) : Prints level t lexemes := by
  cases h with
  | literal => exact .literal level _
  | unary _ op h => exact .unary level op h
  | binary hlevel hleft hright => exact .binary (Nat.le_of_succ_le hlevel) hleft hright
  | parens _ h => exact .parens level h

/-- The chain is printed without any parentheses. -/
theorem prints_chain : Prints 1 (chainArith first links) (chainLexemes first links) := by
  -- The expression and its lexemes are grouped side by side, since the levels speak of both.
  let apply (op : Operator) (left right : Arith × List Lexeme) : Arith × List Lexeme :=
    (.binary op left.1 right.1, left.2 ++ ([.sign op.sign] ++ right.2))
  let start : Arith × List Lexeme := (.ofInt first, numberLexemes first)
  let operands : List (Operator × Arith × List Lexeme) :=
    links.map fun link => (link.op, .ofInt link.number, numberLexemes link.number)
  have hpair : Prints 1 (group apply start operands).1 (group apply start operands).2 := by
    refine group_induction (P := fun level (t : Arith × List Lexeme) => Prints level t.1 t.2)
      (Q := fun _ => True) (fun _ _ h => h.lower)
      (fun op _ _ _ hleft hright => .binary (Nat.le_refl op.precedence) hleft hright)
      (prints_ofInt 3 first) fun link hlink => ?_
    obtain ⟨link, -, rfl⟩ := List.mem_map.mp hlink
    exact ⟨True.intro, prints_ofInt 3 link.number⟩
  have harith : (group apply start operands).1 = chainArith first links := by
    have htree : ∀ op left right, (apply op left right).1 = .binary op left.1 right.1 :=
      fun _ _ _ => rfl
    rw [← group_map htree, List.map_map]
    rfl
  have hlexemes : (group apply start operands).2 = chainLexemes first links := by
    let join (op : Operator) (front back : List Lexeme) : List Lexeme :=
      front ++ ([.sign op.sign] ++ back)
    have hjoin : ∀ op left right, (apply op left right).2 = join op left.2 right.2 :=
      fun _ _ _ => rfl
    rw [← group_map hjoin, group_join fun op => [Lexeme.sign op.sign], List.map_map,
      List.flatMap_map]
    rfl
  rwa [harith, hlexemes] at hpair

theorem spaced_chain : Spaced (chainLexemes first links) (chainText first links).toList := by
  rw [chainText, String.toList_ofList]
  refine Spaced.number 0 first ?_
  induction links with
  | nil => exact .nil 0
  | cons link links ih =>
    have hlink := Spaced.cons link.before (.sign link.op.sign)
      (Spaced.number link.behind link.number ih)
    simpa [Lexeme.chars] using hlink

/-- A chain comes to the outcome of the expression that it stands for. -/
theorem evaluate_chainText :
    evaluate (chainText first links) = (chainArith first links).outcome.mapError .eval := by
  obtain ⟨tree, hparse, heval⟩ :=
    Language.exists_calc_parse (prints_chain first links) (spaced_chain first links)
  rw [evaluate, hparse]
  dsimp only
  rw [heval]

/-- A chain of nothing but a number is the text of the number. -/
theorem chainText_nil (v : Int) : chainText v [] = toString v := by
  rw [chainText, List.flatMap_nil, List.append_nil, String.ofList_toList]

/-! ## 5.  Values of chains -/

variable {first links}

/-- If there is but one thing that goes wrong, it is reported, wherever it goes wrong first. -/
theorem Arith.outcome_of_forall_eq {t : Arith} {fault : EvalError} (hsome : fault ∈ t.faults)
    (hall : ∀ other ∈ t.faults, other = fault) : t.outcome = .error fault := by
  rw [Arith.outcome]
  cases hfaults : t.faults with
  | nil =>
    rw [hfaults] at hsome
    cases hsome
  | cons first more =>
    rw [hfaults] at hall
    rw [hall first List.mem_cons_self]

/-- If all is in range, a chain is refused only for the least number, and that is in it. -/
theorem outcome_chainArith (hnumbers : ∀ v ∈ numbers first links, Fits v)
    (hresults : ∀ v ∈ chainResults first links, Fits v) :
    (chainArith first links).outcome =
      if -2 ^ 31 ∈ numbers first links then .error (.invalidNumber "2147483648")
      else .ok (chainValue first links) := by
  have hfaults : (chainArith first links).faults = (numbers first links).flatMap fun v =>
      if v = -2 ^ 31 then [.invalidNumber "2147483648"] else [] := by
    rw [faults_chainArith first links hresults]
    exact List.flatMap_congr fun v hv => faults_ofInt (hnumbers v hv)
  by_cases hleast : -2 ^ 31 ∈ numbers first links
  · rw [if_pos hleast]
    refine Arith.outcome_of_forall_eq ?_ fun fault hfault => ?_
    · rw [hfaults, List.mem_flatMap]
      exact ⟨-2 ^ 31, hleast, List.mem_singleton_self _⟩
    · rw [hfaults, List.mem_flatMap] at hfault
      obtain ⟨v, -, hfault⟩ := hfault
      split at hfault
      · exact List.mem_singleton.mp hfault
      · cases hfault
  · have hnone : (chainArith first links).faults = [] := by
      rw [hfaults, List.flatMap_eq_nil_iff]
      intro v hv
      exact if_neg fun heq => hleast (by rwa [heq] at hv)
    rw [if_neg hleast, Arith.outcome, hnone, value_chainArith]

theorem evaluate_chainText_of_fits (hnumbers : ∀ v ∈ numbers first links, Fits v)
    (hresults : ∀ v ∈ chainResults first links, Fits v) :
    evaluate (chainText first links) =
      if -2 ^ 31 ∈ numbers first links then .error (.eval (.invalidNumber "2147483648"))
      else .ok (chainValue first links) := by
  rw [evaluate_chainText, outcome_chainArith hnumbers hresults]
  split <;> rfl

/-- The text of a number in range comes to the number, unless it is the least one. -/
theorem evaluate_toString {v : Int} (h : Fits v) :
    evaluate (toString v) =
      if v = -2 ^ 31 then .error (.eval (.invalidNumber "2147483648")) else .ok v := by
  have hnumbers : ∀ a ∈ numbers v [], Fits a := List.forall_mem_singleton.mpr h
  have hresults : ∀ a ∈ chainResults v [], Fits a := fun a ha => absurd ha List.not_mem_nil
  rw [← chainText_nil, evaluate_chainText_of_fits hnumbers hresults]
  simp only [numbers, List.map_nil, List.mem_singleton, eq_comm]
  rfl

/-- **Chains of numbers match native arithmetic.**  If the numbers and all results on the way are in
range, a chain comes to its value.  Only the least number is refused wherever it is written, and so it
is as the text of a value. -/
theorem evaluate_numbers :
    (∀ (first : Int) (links : List Link), (∀ v ∈ numbers first links, Fits v) →
      (∀ v ∈ chainResults first links, Fits v) →
      evaluate (chainText first links) =
        if -2 ^ 31 ∈ numbers first links then .error (.eval (.invalidNumber "2147483648"))
        else .ok (chainValue first links)) ∧
    ∀ (source : String) (v : Int), evaluate source = .ok v →
      evaluate (toString v) =
        if v = -2 ^ 31 then .error (.eval (.invalidNumber "2147483648")) else .ok v :=
  ⟨fun _ _ => evaluate_chainText_of_fits, fun _ _ h => evaluate_toString (fits_of_evaluate h)⟩

/-- A product that leaves little room, between the greatest number that can be negated and a number
with a sign of its own. -/
theorem evaluate_numbers_signed :
    let links : List Link := [⟨.add, by decide, 46341, 1, 1⟩, ⟨.mul, by decide, 46340, 0, 0⟩,
      ⟨.sub, by decide, -5, 2, 0⟩]
    (∀ v ∈ numbers (-2147483647) links, Fits v) ∧
    (∀ v ∈ chainResults (-2147483647) links, Fits v) ∧
    chainText (-2147483647) links = "-2147483647 + 46341*46340  --5" ∧
    evaluate "-2147483647 + 46341*46340  --5" = .ok (-41702) ∧
    evaluate (toString (-41702 : Int)) = .ok (-41702) := by
  intro links
  have hnumbers : ∀ v ∈ numbers (-2147483647) links, Fits v := by decide
  have hresults : ∀ v ∈ chainResults (-2147483647) links, Fits v := by decide
  have htext : chainText (-2147483647) links = "-2147483647 + 46341*46340  --5" := by decide
  have hvalue : evaluate "-2147483647 + 46341*46340  --5" = .ok (-41702) := by
    rw [← htext, evaluate_numbers.1 _ links hnumbers hresults]
    decide
  exact ⟨hnumbers, hresults, htext, hvalue, evaluate_numbers.2 _ _ hvalue⟩

/-- **The least number can be computed, but what it is written as is refused.** -/
theorem evaluate_least_refused :
    let least : Int := -2 ^ 31
    let links : List Link := [⟨.sub, by decide, 1, 0, 0⟩]
    evaluate (chainText (-2147483647) links) = .ok least ∧
    Fits least ∧ chainResults least [] = [] ∧ chainValue least [] = least ∧
    chainText least [] = toString least ∧
    evaluate (toString least) = .error (.eval (.invalidNumber "2147483648")) := by
  intro least links
  have hcomputed : evaluate (chainText (-2147483647) links) = .ok least := by
    rw [evaluate_chainText_of_fits (by decide) (by decide)]
    decide
  exact ⟨hcomputed, by decide, rfl, rfl, chainText_nil least, evaluate_toString (by decide)⟩

end GrammarKit.Calc
