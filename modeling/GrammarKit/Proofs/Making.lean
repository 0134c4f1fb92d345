import GrammarKit.Making
import GrammarKit.Proofs.Arena

/-!
# Nodes are made at once or not at all

A request in steps may be refused in the midst.  What a step has added stays, so a request that looks at
a number behind a node that it adds would leave half of its work behind.  None does.  All looks of a
request come before the first node, even where a node is added for each name of a declaration.  So if a
number leads out of the arena, the arena is left as it is.

It is otherwise if the numbers run out.  A request that adds one node leaves the arena as it is; but a
declaration adds several, and those for which there still are numbers stay.

Where nothing is refused, the steps do what the builders do at once.

* `Making.Settles`: what becomes of steps, if a builder knows what they would do given room.
* `Pascal.looksAt`, `Pascal.adds`: the numbers that a request looks at, and how many nodes it adds.
* `Pascal.settles_make`: the steps of Pascal settle as its builder says.
* `requests_add_or_refuse`: this for requests in any number and order, and which of them are refused.
* `requests_exhaust`: both languages run out of numbers.
-/

namespace GrammarKit

/-! ## 1.  Steps -/

namespace Making

variable {α β : Type} {arena : Arena}

theorem carryOut_bind (making : Making α) (next : α → Making β) (arena : Arena) :
    (making >>= next).carryOut arena =
      match making.carryOut arena with
      | (.ok a, after) => (next a).carryOut after
      | (.error why, after) => (.error why, after) := by
  rw [carryOut, carryOut, ExceptT.run_bind, StateT.run_bind]
  rcases making.run.run arena with ⟨why | a, after⟩ <;> rfl

theorem carryOut_get (arena : Arena) : (get : Making Arena).carryOut arena = (.ok arena, arena) := rfl

theorem carryOut_look (id : NodeId) (arena : Arena) :
    (look id).carryOut arena = ((arena.get id).mapError .tree, arena) := by
  rw [look, carryOut_bind, carryOut_get]
  dsimp only
  cases arena.get id <;> rfl

theorem carryOut_lookInto (id : NodeId) (arena : Arena) :
    (lookInto id).carryOut arena = ((arena.items id).mapError .tree, arena) := by
  rw [lookInto, carryOut_bind, carryOut_look, Arena.items]
  rcases arena.get id with fault | node
  · rfl
  · cases node <;> rfl

/-- Looks change nothing, so it does not matter whether the items are put together between them. -/
theorem carryOut_mapM_lookInto (ids : List NodeId) (arena : Arena) :
    (ids.mapM lookInto).carryOut arena = ((ids.mapM arena.items).mapError .tree, arena) := by
  induction ids with
  | nil => rfl
  | cons id ids ih =>
    rw [List.mapM_cons, List.mapM_cons, carryOut_bind, carryOut_lookInto]
    rcases arena.items id with fault | items
    · rfl
    · show (ids.mapM lookInto >>= fun lists => pure (items :: lists)).carryOut arena = _
      rw [carryOut_bind, ih]
      rcases ids.mapM arena.items with fault | lists <;> rfl

theorem carryOut_add_of_lt (node : Node) (h : arena.size < Arena.capacity) :
    (add node).carryOut arena = (.ok (arena.alloc node).1, (arena.alloc node).2) := by
  rw [add, carryOut_bind, carryOut_get]
  dsimp only
  rw [Arena.alloc?, if_pos h]
  rfl

theorem carryOut_add_of_le (node : Node) (h : Arena.capacity ≤ arena.size) :
    (add node).carryOut arena = (.error .exhausted, arena) := by
  rw [add, carryOut_bind, carryOut_get]
  dsimp only
  rw [Arena.alloc?, if_neg (Nat.not_lt_of_le h)]
  rfl

/-! ## 2.  What becomes of steps -/

/-- What becomes of steps which, given room without end, would answer with `a` and make the arena `whole`
of `arena`: they do, or the numbers run out and an arena is left that has as much of it as fits. -/
def Fits (arena : Arena) (a : α) (whole : Arena) (outcome : Except Refusal α × Arena) : Prop :=
  whole.size ≤ max Arena.capacity arena.size ∧ outcome = (.ok a, whole) ∨
    max Arena.capacity arena.size < whole.size ∧ ∃ after, outcome = (.error .exhausted, after) ∧
      arena.Grows after ∧ after.Grows whole ∧ after.size = max Arena.capacity arena.size

/-- What becomes of steps, if a builder answers the same request with a fault or with an arena. -/
def Settles (arena : Arena) :
    Except TreeFault (NodeId × Arena) → Except Refusal NodeId × Arena → Prop
  | .ok (id, whole), outcome => Fits arena id whole outcome
  | .error fault, outcome => outcome = (.error (.tree fault), arena)

theorem fits_pure (a : α) (arena : Arena) : Fits arena a arena ((pure a : Making α).carryOut arena) :=
  .inl ⟨Nat.le_max_right _ _, rfl⟩

theorem fits_add (node : Node) (arena : Arena) :
    Fits arena (arena.alloc node).1 (arena.alloc node).2 ((add node).carryOut arena) := by
  have hsize := arena.size_alloc node
  by_cases hroom : arena.size < Arena.capacity
  · exact .inl ⟨by omega, carryOut_add_of_lt node hroom⟩
  · exact .inr ⟨by omega, arena, carryOut_add_of_le node (Nat.le_of_not_lt hroom), .refl arena,
      arena.grows_alloc node, by omega⟩

/-- Steps that are followed by more steps. -/
theorem Fits.bind {making : Making α} {next : α → Making β} {a : α} {b : β} {between whole : Arena}
    (h : Fits arena a between (making.carryOut arena)) (hgrows : arena.Grows between)
    (hnext : Fits between b whole ((next a).carryOut between)) (hgrows' : between.Grows whole) :
    Fits arena b whole ((making >>= next).carryOut arena) := by
  have hle := hgrows.size_le
  have hle' := hgrows'.size_le
  rw [carryOut_bind]
  rcases h with ⟨hfits, houtcome⟩ | ⟨hfull, after, houtcome, hafter, hbetween, hsize⟩
  · rw [houtcome]
    -- What has fitted changes nothing about how much there is room for.
    have hroom : max Arena.capacity between.size = max Arena.capacity arena.size := by omega
    rcases hnext with ⟨hfits', houtcome'⟩ | ⟨hfull, after, houtcome', hafter, hwhole, hsize⟩
    · exact .inl ⟨by omega, houtcome'⟩
    · exact .inr ⟨by omega, after, houtcome', hgrows.trans hafter, hwhole, by omega⟩
  · rw [houtcome]
    exact .inr ⟨by omega, after, rfl, hafter, hbetween.trans hgrows', hsize⟩

/-- Nodes that are added one after the other are added together, as far as they fit. -/
theorem fits_mapM_add (node : α → Node) (items : List α) (arena : Arena) :
    Fits arena (arena.allocAll (items.map node)).1 (arena.allocAll (items.map node)).2
      ((items.mapM fun item => add (node item)).carryOut arena) := by
  induction items generalizing arena with
  | nil =>
    rw [List.mapM_nil, List.map_nil, Arena.allocAll_nil]
    exact fits_pure [] arena
  | cons item items ih =>
    rw [List.mapM_cons, List.map_cons, Arena.allocAll_cons]
    refine (fits_add (node item) arena).bind (arena.grows_alloc _) ?_ (Arena.grows_allocAll _ _)
    exact (ih _).bind (Arena.grows_allocAll _ _) (fits_pure _ _) (.refl _)

end Making

open Making

namespace Pascal

theorem itemsOfAll_eq (arena : Arena) (nodes : List NodeId) :
    itemsOfAll arena nodes = (nodes.mapM arena.items).map List.flatten := by
  have hfold : ∀ before : List NodeId,
      nodes.foldlM (fun items node => (arena.items node).map (items ++ ·)) before =
        (nodes.mapM arena.items).map fun lists => before ++ lists.flatten := by
    induction nodes with
    | nil => exact fun before => congrArg Except.ok (List.append_nil before).symm
    | cons node nodes ih =>
      intro before
      rw [List.foldlM_cons, List.mapM_cons]
      rcases arena.items node with fault | items
      · rfl
      · show nodes.foldlM _ (before ++ items) = _
        rw [ih]
        rcases nodes.mapM arena.items with fault | lists
        · rfl
        · exact congrArg Except.ok (List.append_assoc before items lists.flatten)
  exact hfold []

/-- **The steps of a request settle as the builder says.** -/
theorem settles_make (request : Reduction (Token Kind) NodeId) (arena : Arena) :
    Settles arena (build request arena) ((make request).carryOut arena) := by
  cases request with
  | null => exact fits_add _ _
  | empty rule => exact fits_add _ _
  | term rule token => exact fits_add _ _
  | nonterm rule child =>
    rw [make, build, carryOut_bind, carryOut_look]
    rcases arena.get child with fault | node
    · rfl
    · cases node <;> exact fits_add _ _
  | termNonterm rule token operand =>
    rw [make, build]
    cases unaryOp? token.kind <;> exact fits_add _ _
  | nontermNonterm rule left right =>
    rw [make, build]
    split
    · exact fits_add _ _
    · split
      · rw [carryOut_bind, carryOut_lookInto]
        rcases arena.items left with fault | items
        · rfl
        · exact fits_add _ _
      · exact fits_add _ _
  | nontermTermNonterm rule left token right =>
    rw [make, build]
    cases binaryOp? rule token.kind <;> exact fits_add _ _
  | nontermList rule nodes =>
    rw [make, build]
    split
    · rw [carryOut_bind, carryOut_mapM_lookInto, itemsOfAll_eq]
      rcases nodes.mapM arena.items with fault | lists
      · rfl
      · exact fits_add _ _
    · split <;> exact fits_add _ _
  | termNontermList rule terms nodes =>
    simp only [make, build]
    split
    · cases nodes with
      | nil => exact fits_add _ _
      | cons first nodes =>
        rw [declared?, carryOut_bind, carryOut_look]
        rcases arena.get first with fault | node
        · rfl
        · cases node with
          | raw type =>
            -- The names are told apart first, and only then the nodes are added.
            exact (fits_mapM_add _ _ arena).bind (arena.grows_allocAll _) (fits_add _ _)
              (Arena.grows_alloc _ _)
          | _ => exact fits_add _ _
    · exact fits_add _ _

/-! ## 3.  Which requests are refused -/

/-- The numbers that a request looks at, in order. -/
def looksAt : Reduction (Token Kind) NodeId → List NodeId
  | .nonterm _ child => [child]
  | .nontermNonterm rule left _ => if rule = block then [left] else []
  | .nontermList rule nodes => if rule = declarations then nodes else []
  | .termNontermList rule _ nodes => if rule = variableDeclaration then nodes.take 1 else []
  | _ => []

/-- The number of nodes that a request adds: one, and one more for each name of a declaration. -/
def adds (arena : Arena) : Reduction (Token Kind) NodeId → Nat
  | .termNontermList rule terms (first :: _) =>
    if rule = variableDeclaration then
      match arena.get first with
      | .ok (.raw _) => terms.countP (·.kind == .id) + 1
      | _ => 1
    else 1
  | _ => 1

/-- What comes of a request that is carried out: a number that leads to a node, in an arena that has
grown by so many. -/
def Builds (arena : Arena) (count : Nat) (made : Except TreeFault (NodeId × Arena)) : Prop :=
  ∃ id whole, made = .ok (id, whole) ∧ arena.Grows whole ∧ whole.InRange id ∧
    whole.size = arena.size + count

variable {arena : Arena} {request : Reduction (Token Kind) NodeId} {id : NodeId}

theorem adds_pos (arena : Arena) (request : Reduction (Token Kind) NodeId) :
    0 < adds arena request := by
  unfold adds
  repeat' split
  all_goals exact Nat.succ_pos _

/-- Only a declaration adds more than one node. -/
theorem exists_of_adds_ne_one (h : adds arena request ≠ 1) :
    ∃ terms nodes, request = .termNontermList variableDeclaration terms nodes := by
  unfold adds at h
  split at h
  · next rule terms first nodes =>
    split at h
    · next hrule =>
      rw [hrule]
      exact ⟨terms, first :: nodes, rfl⟩
    · exact absurd rfl h
  · exact absurd rfl h

theorem adds_of_ne {rule : RuleId} (h : rule ≠ variableDeclaration) (terms : List (Token Kind))
    (nodes : List NodeId) : adds arena (.termNontermList rule terms nodes) = 1 := by
  cases nodes with
  | nil => rfl
  | cons first nodes => exact if_neg h

theorem builds_alloc (arena : Arena) (node : Node) : Builds arena 1 (.ok (arena.alloc node)) :=
  ⟨_, _, rfl, arena.grows_alloc node, arena.inRange_alloc node, arena.size_alloc node⟩

/-- Nodes for names, and the list of them. -/
theorem builds_allocAll (arena : Arena) (nodes : List Node) :
    Builds arena (nodes.length + 1)
      (.ok ((arena.allocAll nodes).2.alloc (.rawList (arena.allocAll nodes).1))) := by
  refine ⟨_, _, rfl, (arena.grows_allocAll nodes).trans (Arena.grows_alloc _ _),
    Arena.inRange_alloc _ _, (Arena.size_alloc _ _).trans ?_⟩
  rw [Arena.size_allocAll, Nat.add_assoc]

theorem exists_items (h : arena.InRange id) : ∃ items, arena.items id = .ok items := by
  obtain ⟨node, hnode⟩ := Arena.exists_get h
  rw [Arena.items, hnode]
  exact ⟨_, rfl⟩

theorem items_eq_error (h : ¬ arena.InRange id) :
    arena.items id = .error (.dangling arena.size id.index) := by
  rw [Arena.items, Arena.get_eq_error h]
  rfl

theorem exists_itemsOfAll {nodes : List NodeId} (h : ∀ id ∈ nodes, arena.InRange id) :
    ∃ items, itemsOfAll arena nodes = .ok items := by
  suffices hlists : ∃ lists, nodes.mapM arena.items = .ok lists by
    obtain ⟨lists, hlists⟩ := hlists
    rw [itemsOfAll_eq, hlists]
    exact ⟨_, rfl⟩
  induction nodes with
  | nil => exact ⟨[], rfl⟩
  | cons node nodes ih =>
    obtain ⟨hnode, hnodes⟩ := List.forall_mem_cons.mp h
    obtain ⟨items, hitems⟩ := exists_items hnode
    obtain ⟨lists, hlists⟩ := ih hnodes
    rw [List.mapM_cons, hitems, hlists]
    exact ⟨_, rfl⟩

/-- The first number that leads nowhere is the one that is reported. -/
theorem itemsOfAll_eq_error {nodes : List NodeId}
    (h : nodes.find? (fun id => ¬ arena.InRange id) = some id) :
    itemsOfAll arena nodes = .error (.dangling arena.size id.index) := by
  suffices hlists : nodes.mapM arena.items = .error (.dangling arena.size id.index) by
    rw [itemsOfAll_eq, hlists]
    rfl
  induction nodes with
  | nil => cases h
  | cons node nodes ih =>
    rw [List.mapM_cons]
    by_cases hnode : arena.InRange node
    · obtain ⟨items, hitems⟩ := exists_items hnode
      rw [List.find?_cons_of_neg (by simpa using hnode)] at h
      rw [hitems, ih h]
      rfl
    · rw [List.find?_cons_of_pos (by simpa using hnode)] at h
      rw [items_eq_error hnode, Option.some.inj h]
      rfl

/-- **A node is made if the nodes that are looked at are there**, and then it is there itself. -/
theorem builds_of_looksAt (h : ∀ id ∈ looksAt request, arena.InRange id) :
    Builds arena (adds arena request) (build request arena) := by
  cases request with
  | null => exact builds_alloc arena _
  | empty rule => exact builds_alloc arena _
  | term rule token => exact builds_alloc arena _
  | nonterm rule child =>
    obtain ⟨node, hnode⟩ := Arena.exists_get (h child List.mem_cons_self)
    simp only [build, hnode, Except.map]
    split <;> exact builds_alloc arena _
  | termNonterm rule token operand =>
    simp only [build]
    split <;> exact builds_alloc arena _
  | nontermNonterm rule left right =>
    simp only [build]
    split
    · exact builds_alloc arena _
    · split
      · next hrule =>
        rw [looksAt, if_pos hrule] at h
        obtain ⟨items, hitems⟩ := exists_items (h left List.mem_cons_self)
        rw [hitems]
        exact builds_alloc arena _
      · exact builds_alloc arena _
  | nontermTermNonterm rule left token right =>
    simp only [build]
    split <;> exact builds_alloc arena _
  | nontermList rule nodes =>
    simp only [build]
    split
    · next hrule =>
      rw [looksAt, if_pos hrule] at h
      obtain ⟨items, hitems⟩ := exists_itemsOfAll h
      rw [hitems]
      exact builds_alloc arena _
    · split <;> exact builds_alloc arena _
  | termNontermList rule terms nodes =>
    simp only [build]
    split
    · next hrule =>
      rw [looksAt, if_pos hrule] at h
      cases nodes with
      | nil => exact builds_alloc arena _
      | cons first nodes =>
        obtain ⟨node, hnode⟩ := Arena.exists_get (h first List.mem_cons_self)
        rw [declared?, adds, if_pos hrule, hnode]
        cases node with
        | raw type =>
          have hnames := builds_allocAll arena
            ((terms.filter (·.kind == .id)).map fun token => .varDecl token.text type)
          rwa [List.length_map, ← List.countP_eq_length_filter] at hnames
        | _ => exact builds_alloc arena _
    · next hrule =>
      rw [adds_of_ne hrule]
      exact builds_alloc arena _

/-- **A request is refused if one of these numbers leads nowhere**, because of the first that does. -/
theorem build_eq_error (h : (looksAt request).find? (fun id => ¬ arena.InRange id) = some id) :
    build request arena = .error (.dangling arena.size id.index) := by
  have hone : ∀ {only : NodeId}, [only].find? (fun id => ¬ arena.InRange id) = some id →
      ¬ arena.InRange id ∧ only = id := by
    intro only hfind
    obtain ⟨hout, hmem⟩ := And.intro (List.find?_some hfind) (List.mem_of_find?_eq_some hfind)
    exact ⟨of_decide_eq_true hout, (List.mem_singleton.mp hmem).symm⟩
  cases request with
  | null => cases h
  | empty rule => cases h
  | term rule token => cases h
  | termNonterm rule token operand => cases h
  | nontermTermNonterm rule left token right => cases h
  | nonterm rule child =>
    obtain ⟨hout, rfl⟩ := hone h
    rw [build, Arena.get_eq_error hout]
    rfl
  | nontermNonterm rule left right =>
    rw [looksAt] at h
    split at h
    · next hrule =>
      obtain ⟨hout, rfl⟩ := hone h
      rw [build, hrule, if_neg (by decide), if_pos rfl, items_eq_error hout]
      rfl
    · cases h
  | nontermList rule nodes =>
    rw [looksAt] at h
    split at h
    · next hrule =>
      rw [build, if_pos hrule, itemsOfAll_eq_error h]
      rfl
    · cases h
  | termNontermList rule terms nodes =>
    rw [looksAt] at h
    split at h
    · next hrule =>
      cases nodes with
      | nil => cases h
      | cons first nodes =>
        obtain ⟨hout, rfl⟩ := hone h
        rw [build, if_pos hrule, declared?, Arena.get_eq_error hout]
        rfl
    · cases h

end Pascal

/-! ## 4.  Requests one after the other -/

/-- The arena behind requests that are carried out in turn, each on what the one before left, refused or
not. -/
def Making.afterAll {R : Type} (make : R → Making NodeId) (requests : List R) (arena : Arena) : Arena :=
  requests.foldl (fun arena request => ((make request).carryOut arena).2) arena

/-- What each request adds to, all of them add to. -/
theorem Making.grows_afterAll {R : Type} {make : R → Making NodeId}
    (h : ∀ (request : R) (arena : Arena), arena.Grows ((make request).carryOut arena).2)
    (requests : List R) (arena : Arena) : arena.Grows (afterAll make requests arena) := by
  induction requests generalizing arena with
  | nil => exact .refl arena
  | cons request requests ih => exact (h request arena).trans (ih _)

/-- Each request is for the second of two nonterminals, or a node is made for it if there is room. -/
theorem Calc.make_cases (request : Reduction (Token Calc.Kind) NodeId) (arena : Arena) :
    (∃ rule left right, request = .nontermNonterm rule left right ∧
      (make request).carryOut arena = (.ok right, arena) ∧ build request arena = (right, arena)) ∨
    (∀ rule left right, request ≠ .nontermNonterm rule left right) ∧
      ∃ id whole, build request arena = (id, whole) ∧ arena.Grows whole ∧ whole.InRange id ∧
        whole.size = arena.size + 1 ∧
        (arena.size < Arena.capacity ∧ (make request).carryOut arena = (.ok id, whole) ∨
          Arena.capacity ≤ arena.size ∧ (make request).carryOut arena = (.error .exhausted, arena)) := by
  cases request with
  | nontermNonterm rule left right => exact .inl ⟨rule, left, right, rfl, rfl, rfl⟩
  | _ =>
    refine .inr ⟨?_, _, _, rfl, arena.grows_alloc _, arena.inRange_alloc _, arena.size_alloc _, ?_⟩
    · intro rule left right h
      cases h
    · rcases Nat.lt_or_ge arena.size Arena.capacity with hroom | hfull
      · exact .inl ⟨hroom, carryOut_add_of_lt _ hroom⟩
      · exact .inr ⟨hfull, carryOut_add_of_le _ hfull⟩

theorem Calc.grows_make (request : Reduction (Token Calc.Kind) NodeId) (arena : Arena) :
    arena.Grows ((Calc.make request).carryOut arena).2 := by
  rcases Calc.make_cases request arena with
    ⟨_, _, _, -, hmake, -⟩ | ⟨-, _, _, -, hgrows, -, -, ⟨-, hmake⟩ | ⟨-, hmake⟩⟩ <;> rw [hmake]
  · exact .refl arena
  · exact hgrows
  · exact .refl arena

/-- Each request is refused for the first number that leads nowhere and nothing is done, or it is carried
out if there is room for its nodes. -/
theorem Pascal.make_cases (request : Reduction (Token Pascal.Kind) NodeId) (arena : Arena) :
    (∃ id, (looksAt request).find? (fun id => ¬ arena.InRange id) = some id ∧
      (make request).carryOut arena = (.error (.tree (.dangling arena.size id.index)), arena) ∧
      build request arena = .error (.dangling arena.size id.index)) ∨
    (∀ id ∈ looksAt request, arena.InRange id) ∧
      ∃ id whole, build request arena = .ok (id, whole) ∧ arena.Grows whole ∧ whole.InRange id ∧
        whole.size = arena.size + adds arena request ∧
        (whole.size ≤ Arena.capacity ∧ (make request).carryOut arena = (.ok id, whole) ∨
          Arena.capacity < whole.size ∧ ∃ after,
            (make request).carryOut arena = (.error .exhausted, after) ∧
            arena.Grows after ∧ after.Grows whole ∧ after.size = max Arena.capacity arena.size ∧
            (after ≠ arena →
              ∃ terms nodes, request = .termNontermList variableDeclaration terms nodes)) := by
  have hsettles := settles_make request arena
  cases hfind : (looksAt request).find? (fun id => ¬ arena.InRange id) with
  | some id =>
    rw [build_eq_error hfind] at hsettles ⊢
    exact .inl ⟨id, rfl, hsettles, rfl⟩
  | none =>
    have hall : ∀ id ∈ looksAt request, arena.InRange id := by simpa using hfind
    obtain ⟨id, whole, hbuild, hgrows, hid, hsize⟩ := builds_of_looksAt hall
    have hpos := adds_pos arena request
    rw [hbuild] at hsettles
    refine .inr ⟨hall, id, whole, hbuild, hgrows, hid, hsize, ?_⟩
    rcases hsettles with ⟨hfits, hmake⟩ | ⟨hfull, after, hmake, hafter, hwhole, hmax⟩
    · exact .inl ⟨by omega, hmake⟩
    · refine .inr ⟨by omega, after, hmake, hafter, hwhole, hmax, fun hne => ?_⟩
      -- A single node would not have been added, for the arena was full before.
      have hone : adds arena request ≠ 1 := fun hone => hne (hafter.eq_of_size_eq (by omega))
      exact exists_of_adds_ne_one hone

theorem Pascal.grows_make (request : Reduction (Token Pascal.Kind) NodeId) (arena : Arena) :
    arena.Grows ((Pascal.make request).carryOut arena).2 := by
  rcases Pascal.make_cases request arena with
    ⟨_, -, hmake, -⟩ | ⟨-, _, _, -, hgrows, -, -, ⟨-, hmake⟩ | ⟨-, _, hmake, hafter, -⟩⟩ <;> rw [hmake]
  · exact .refl arena
  · exact hgrows
  · exact hafter

/-- **Requests add nodes or are refused**, whatever numbers they are given, and whatever was asked for
before.  There are numbers for `Arena.capacity` nodes, which is 2³².

The calculator looks at no node.  Of two nonterminals it takes the second as it is; for all else it adds
one node and answers with its number, unless there is no number left, and then the arena stays as it is.

Pascal refuses a request if it looks at a number that leads out of the arena; then it reports the first such
number and leaves the arena as it was.  Otherwise it adds its nodes and answers with the number of one of
them, if there are numbers for all.  If there are not, the request is refused, and the arena has as many of
them as there are numbers for; only a declaration may so leave more behind than was there before.

Where nothing is refused, the outcome is that of the builder. -/
theorem requests_add_or_refuse (start : Arena) :
    (∀ (earlier : List (Reduction (Token Calc.Kind) NodeId)) (request),
      let before := Making.afterAll Calc.make earlier start
      start.Grows before ∧
        ((∃ rule left right, request = .nontermNonterm rule left right ∧
          (Calc.make request).carryOut before = (.ok right, before) ∧
          Calc.build request before = (right, before)) ∨
        (∀ rule left right, request ≠ .nontermNonterm rule left right) ∧
          ∃ id whole, Calc.build request before = (id, whole) ∧ before.Grows whole ∧
            whole.InRange id ∧ whole.size = before.size + 1 ∧
            (before.size < Arena.capacity ∧ (Calc.make request).carryOut before = (.ok id, whole) ∨
              Arena.capacity ≤ before.size ∧
                (Calc.make request).carryOut before = (.error .exhausted, before)))) ∧
    ∀ (earlier : List (Reduction (Token Pascal.Kind) NodeId)) (request),
      let before := Making.afterAll Pascal.make earlier start
      start.Grows before ∧
        ((∃ id, (Pascal.looksAt request).find? (fun id => ¬ before.InRange id) = some id ∧
          (Pascal.make request).carryOut before =
            (.error (.tree (.dangling before.size id.index)), before) ∧
          Pascal.build request before = .error (.dangling before.size id.index)) ∨
        (∀ id ∈ Pascal.looksAt request, before.InRange id) ∧
          ∃ id whole, Pascal.build request before = .ok (id, whole) ∧ before.Grows whole ∧
            whole.InRange id ∧ whole.size = before.size + Pascal.adds before request ∧
            (whole.size ≤ Arena.capacity ∧ (Pascal.make request).carryOut before = (.ok id, whole) ∨
              Arena.capacity < whole.size ∧ ∃ after,
                (Pascal.make request).carryOut before = (.error .exhausted, after) ∧
                before.Grows after ∧ after.Grows whole ∧ after.size = max Arena.capacity before.size ∧
                (after ≠ before → ∃ terms nodes,
                  request = .termNontermList Pascal.variableDeclaration terms nodes))) :=
  ⟨fun earlier request => ⟨Making.grows_afterAll Calc.grows_make earlier start,
      Calc.make_cases request _⟩,
    fun earlier request => ⟨Making.grows_afterAll Pascal.grows_make earlier start,
      Pascal.make_cases request _⟩⟩

/-- Requests that add one node each fill the arena. -/
theorem Making.size_afterAll_replicate {R : Type} {make : R → Making NodeId} {request : R} {node : Node}
    (h : make request = add node) (count : Nat) (arena : Arena)
    (hroom : arena.size + count ≤ Arena.capacity) :
    (afterAll make (List.replicate count request) arena).size = arena.size + count := by
  induction count generalizing arena with
  | zero => rfl
  | succ count ih =>
    have hadd : ((make request).carryOut arena).2 = (arena.alloc node).2 := by
      rw [h, carryOut_add_of_lt node (by omega)]
    have hsize := arena.size_alloc node
    rw [List.replicate_succ, afterAll, List.foldl_cons, hadd, ← afterAll, ih _ (by omega)]
    omega

/-- Behind a request for a type and some for nothing, the type is the first node. -/
theorem Pascal.size_and_get_afterAll_type (count : Nat) (hroom : 1 + count ≤ Arena.capacity) :
    let after := Making.afterAll make
      (.term typeSpec ⟨.integer, "INTEGER", 0⟩ :: List.replicate count .null) .empty
    after.size = 1 + count ∧ after.get ⟨0⟩ = .ok (.raw "INTEGER") := by
  intro after
  have hfirst : after = Making.afterAll make (List.replicate count .null)
      (Arena.empty.alloc (.raw "INTEGER")).2 := rfl
  rw [hfirst]
  have hnull : make .null = add .null := rfl
  exact ⟨Making.size_afterAll_replicate hnull count _ hroom, (Making.grows_afterAll grows_make _ _).get rfl⟩

/-- If there is one number left, the node of a name takes it, and the declaration is refused. -/
theorem Pascal.carryOut_declaration_of_one_left {arena : Arena}
    (hsize : arena.size + 1 = Arena.capacity)
    (hget : arena.get ⟨0⟩ = .ok (.raw "INTEGER")) :
    let request : Reduction (Token Kind) NodeId :=
      .termNontermList variableDeclaration [⟨.id, "x", 0⟩] [⟨0⟩]
    (∀ id ∈ looksAt request, arena.InRange id) ∧
      ∃ after, (make request).carryOut arena = (.error .exhausted, after) ∧
        after.size = Arena.capacity := by
  intro request
  have hlooks : ∀ id ∈ looksAt request, arena.InRange id :=
    List.forall_mem_singleton.mpr (Arena.inRange_of_get hget)
  have hadds : adds arena request = 2 := by
    simp only [request, adds, if_true, hget]
    rfl
  refine ⟨hlooks, ?_⟩
  rcases make_cases request arena with
    ⟨id, hfind, -⟩ | ⟨-, id, whole, -, -, -, hwhole, ⟨hle, -⟩ | ⟨-, after, hmake, -, -, hmax, -⟩⟩
  · have hout : ¬ arena.InRange id := by simpa using List.find?_some hfind
    exact absurd (hlooks id (List.mem_of_find?_eq_some hfind)) hout
  · omega
  · exact ⟨after, hmake, by omega⟩

/-- **Both languages run out of numbers.**  Behind 2³² requests the calculator refuses one that looks at
nothing.  Behind one request less, Pascal refuses a declaration whose type is there, and leaves the node of
its name behind. -/
theorem requests_exhaust :
    let full := Making.afterAll Calc.make (List.replicate Arena.capacity .null) .empty
    let almost := Making.afterAll Pascal.make
      (.term Pascal.typeSpec ⟨.integer, "INTEGER", 0⟩ :: List.replicate (Arena.capacity - 2) .null) .empty
    let declaration : Reduction (Token Pascal.Kind) NodeId :=
      .termNontermList Pascal.variableDeclaration [⟨.id, "x", 0⟩] [⟨0⟩]
    (Calc.make .null).carryOut full = (.error .exhausted, full) ∧
      (∀ id ∈ Pascal.looksAt declaration, almost.InRange id) ∧ almost.size + 1 = Arena.capacity ∧
      ∃ after, (Pascal.make declaration).carryOut almost = (.error .exhausted, after) ∧
        after.size = Arena.capacity := by
  have hnull : Calc.make .null = add .null := rfl
  have htwo : 2 ≤ Arena.capacity := by decide
  have hfull := Making.size_afterAll_replicate hnull Arena.capacity .empty (Nat.le_of_eq (Nat.zero_add _))
  obtain ⟨halmost, hget⟩ := Pascal.size_and_get_afterAll_type (Arena.capacity - 2) (by omega)
  obtain ⟨hlooks, hdeclaration⟩ := Pascal.carryOut_declaration_of_one_left (by omega) hget
  exact ⟨carryOut_add_of_le _ (Nat.le_of_eq (hfull.trans (Nat.zero_add _)).symm), hlooks, by omega,
    hdeclaration⟩

/-- The first list is read before the second number is found to lead nowhere, and nothing is added. -/
example :
    (Pascal.make (.nontermList Pascal.declarations [⟨0⟩, ⟨7⟩])).carryOut ⟨#[.rawList []]⟩ =
      (.error (.tree (.dangling 1 7)), ⟨#[.rawList []]⟩) := by
  rfl

end GrammarKit
