import GrammarKit.Proofs.Ownership
import GrammarKit.Proofs.Pascal.Grammar
import GrammarKit.Proofs.Pascal.Reading

/-!
# What the Pascal parser builds

Whatever the parser tries on the way, the nodes that it keeps store parts of a program and share
nothing.  Lists and types are stored as raw nodes, which the node above takes apart; what is left of a
raw node is of no use to anyone.

* `Part.Stored`: how an arena stores a part of a program.
* `makesPart_build`: a node that means a part is made and stores it.
* `custody`: the nodes that are held store their parts and share nothing.
* `exists_yields_of_parse`: so does the root, which stores the program of the text.
-/

namespace GrammarKit.Pascal

/-! ## Stored parts -/

/-- The part is stored, with this node at the top. -/
def Part.Stored (arena : Arena) : Part → NodeId → Prop
  | .expression e, id => e.Stored arena id
  | .statement s, id => s.Stored arena id
  | .statements ss, id =>
    ∃ ids, arena.get id = .ok (.rawList ids) ∧ Statement.StoredAll arena ss ids
  | .type t, id => arena.get id = .ok (.raw t.text)
  | .declarations ds, id =>
    ∃ ids, arena.get id = .ok (.rawList ids) ∧ StoredDeclarations arena ds ids
  | .block ds ss, id => StoredBlock arena ds ss id
  | .program p, id => p.Stored arena id

theorem Part.lasting_stored : Arena.Lasting Part.Stored := by
  intro before after part id hgrows h
  cases part with
  | expression e => exact Expression.Stored.grows h hgrows
  | statement s => exact Statement.Stored.grows hgrows h
  | statements ss =>
    obtain ⟨ids, hget, hall⟩ := h
    exact ⟨ids, hgrows.get hget, Statement.StoredAll.grows hgrows hall⟩
  | type t => exact hgrows.get h
  | declarations ds =>
    obtain ⟨ids, hget, hall⟩ := h
    exact ⟨ids, hgrows.get hget, hall.grows hgrows⟩
  | block ds ss => exact StoredBlock.grows h hgrows
  | program p => exact Program.Stored.grows h hgrows

/-! ## Nodes -/

variable {arena : Arena} {token : Token Kind}

/-- The items of a list of nodes are below it. -/
theorem items_sublist (h : arena.Tidy) {id : NodeId} {items : List NodeId}
    (hitems : arena.items id = .ok items) :
    (items.flatMap arena.below).Sublist (arena.below id) := by
  rw [Arena.items] at hitems
  cases hget : arena.get id with
  | error fault =>
    rw [hget] at hitems
    cases hitems
  | ok node =>
    rw [hget] at hitems
    have hnothing : ([].flatMap arena.below).Sublist (arena.below id) := List.nil_sublist _
    cases node with
    | rawList ids =>
      cases hitems
      rw [h.below_eq, Arena.links_of_get hget]
      exact List.sublist_cons_self _ _
    | _ =>
      cases hitems
      exact hnothing

/-- The items of several lists are what each of them holds, one after the other. -/
theorem itemsOfAll_of_forall₂ {nodes : List NodeId} {lists : List (List NodeId)}
    (h : List.Forall₂ (fun id items => arena.items id = .ok items) nodes lists) :
    itemsOfAll arena nodes = .ok lists.flatten := by
  have hfold : ∀ before : List NodeId,
      nodes.foldlM (fun items node => (arena.items node).map (items ++ ·)) before =
        .ok (before ++ lists.flatten) := by
    induction h with
    | nil =>
      intro before
      rw [List.flatten_nil, List.append_nil]
      rfl
    | cons hitems _ ih =>
      intro before
      rw [List.foldlM_cons, hitems, List.flatten_cons, ← List.append_assoc]
      exact ih _
  exact hfold []

/-- A list of declarations holds a node for each name. -/
theorem exists_declarations {value : Option Part} {ds : List Declaration} {id : NodeId} {part : Part}
    (hvalue : declarations? value = some ds) (hpart : value = some part)
    (hstored : part.Stored arena id) :
    ∃ items, arena.items id = .ok items ∧ StoredDeclarations arena ds items := by
  subst hpart
  cases part with
  | declarations lines =>
    cases hvalue
    obtain ⟨ids, hget, hall⟩ := hstored
    exact ⟨ids, by rw [Arena.items, hget]; rfl, hall⟩
  | statement s =>
    cases s with
    | empty =>
      cases hvalue
      have hget : arena.get id = .ok .nop := hstored
      exact ⟨[], by rw [Arena.items, hget]; rfl, .nil⟩
    | _ => cases hvalue
  | _ => cases hvalue

variable {frame used : List (NodeId × Option Part)} {part : Part}

/-! ### One token -/

theorem text_of_name? {name : Name} (h : name? token = some name) : name.text = token.text := by
  rw [name?, Name.ofChars?] at h
  split at h
  · cases h
    exact String.ofList_toList
  · cases h

theorem text_of_ofChars? {k : Keyword} {word : Word k} {chars : List Char}
    (h : Word.ofChars? k chars = some word) : word.chars = chars := by
  rw [Word.ofChars?] at h
  split at h
  · cases h
    rfl
  · cases h

/-- A type is kept as it is written. -/
theorem ofToken_of_type? {t : TypeName} (h : type? token = some t) :
    ofToken typeSpec token = .raw t.text := by
  rw [ofToken, if_pos rfl]
  refine congrArg Node.raw ?_
  rw [type?] at h
  split at h
  · obtain ⟨word, hword, rfl⟩ := Option.map_eq_some_iff.mp h
    rw [TypeName.text, text_of_ofChars? hword, String.ofList_toList]
  · obtain ⟨word, hword, rfl⟩ := Option.map_eq_some_iff.mp h
    rw [TypeName.text, text_of_ofChars? hword, String.ofList_toList]
  · cases h

/-- A number is kept as it is written. -/
theorem ofToken_of_number? {n : Number} (h : number? token = some n) :
    ofToken factor token = .const n.kind n.text := by
  obtain ⟨hkind, htext⟩ := of_number?_eq_some h
  rw [ofToken, if_neg (by decide), if_pos rfl, hkind, htext]
  cases n <;> rfl

/-- A variable is kept in small letters. -/
theorem ofToken_of_name? {name : Name} (h : name? token = some name) :
    ofToken variableUse token = .var name.folded := by
  rw [ofToken, if_neg (by decide), if_neg (by decide), if_pos rfl, Name.folded, text_of_name? h]

/-! ### A step -/

/-- What comes of a step: the node is made, and takes the place of the nodes that it is made of. -/
def MakesPart (frame : List (NodeId × Option Part)) (part : Part)
    (made : Except TreeFault (NodeId × Arena)) : Prop :=
  ∃ id arena', made = .ok (id, arena') ∧ arena'.Keeps Part.Stored ((id, some part) :: frame)

theorem makesPart_alloc {node : Node} (h : arena.Keeps Part.Stored (used ++ frame))
    (hnull : node ≠ .null)
    (hlinks : (node.links.flatMap arena.below).Sublist ((used.map Prod.fst).flatMap arena.below))
    (hstored : part.Stored (arena.alloc node).2 (arena.alloc node).1) :
    MakesPart frame part (.ok (arena.alloc node)) :=
  ⟨_, _, rfl, h.alloc Part.lasting_stored hnull hlinks hstored⟩

/-- The parts of the nodes at hand are stored for good. -/
theorem stored_alloc {node : Node} {id : NodeId} (h : arena.Keeps Part.Stored (used ++ frame))
    (hmem : (id, some part) ∈ used) : part.Stored (arena.alloc node).2 id := by
  obtain ⟨part', heq, hstored⟩ := h.grows Part.lasting_stored (arena.grows_alloc node) _
    (List.mem_append_left frame hmem)
  cases heq
  exact hstored

theorem makesPart_term {rule : RuleId} (h : reading (.term rule token) = some part)
    (hkeeps : arena.Keeps Part.Stored frame) :
    MakesPart frame part (build (.term rule token) arena) := by
  have hnone : arena.Keeps Part.Stored ([] ++ frame) := hkeeps
  rw [build]
  rw [reading] at h
  split at h
  · next hrule =>
    obtain ⟨t, ht, rfl⟩ := Option.map_eq_some_iff.mp h
    rw [hrule, ofToken_of_type? ht]
    exact makesPart_alloc hnone Node.noConfusion (List.Sublist.refl _) (Arena.get_alloc_self _ _)
  · split at h
    · next hrule =>
      obtain ⟨n, hn, rfl⟩ := Option.map_eq_some_iff.mp h
      rw [hrule, ofToken_of_number? hn]
      exact makesPart_alloc hnone Node.noConfusion (List.Sublist.refl _) (Arena.get_alloc_self _ _)
    · split at h
      · next hrule =>
        obtain ⟨name, hname, rfl⟩ := Option.map_eq_some_iff.mp h
        rw [hrule, ofToken_of_name? hname]
        exact makesPart_alloc hnone Node.noConfusion (List.Sublist.refl _)
          (Arena.get_alloc_self _ _)
      · cases h

/-- A list of statements is unpacked. -/
theorem makesPart_nonterm {rule : RuleId} {id : NodeId} {value : Option Part}
    (h : reading (.nonterm rule value) = some part)
    (hkeeps : arena.Keeps Part.Stored ([(id, value)] ++ frame)) :
    MakesPart frame part (build (.nonterm rule id) arena) := by
  obtain ⟨child, rfl, hchild⟩ := hkeeps.stored _ List.mem_cons_self
  cases child with
  | statements ss =>
    rw [reading] at h
    split at h
    · next hrule =>
      cases h
      obtain ⟨ids, hget, hall⟩ := hchild
      have hbelow : arena.below id = id :: ids.flatMap arena.below := by
        rw [hkeeps.apart.tidy.below_eq, Arena.links_of_get hget, Node.links]
      rw [build, hget]
      simp only [Except.map, if_pos hrule]
      refine makesPart_alloc hkeeps Node.noConfusion ?_ ?_
      · rw [List.map_singleton, List.flatMap_singleton, hbelow]
        exact List.sublist_cons_self _ _
      · rw [Part.Stored, Statement.Stored]
        exact ⟨ids, Arena.get_alloc_self _ _, Statement.StoredAll.grows (arena.grows_alloc _) hall⟩
    · cases h
  | _ => cases h

theorem makesPart_termNonterm {rule : RuleId} {id : NodeId} {value : Option Part}
    (h : reading (.termNonterm rule token value) = some part)
    (hkeeps : arena.Keeps Part.Stored ([(id, value)] ++ frame)) :
    MakesPart frame part (build (.termNonterm rule token id) arena) := by
  obtain ⟨child, rfl, hchild⟩ := hkeeps.stored _ List.mem_cons_self
  cases child with
  | expression e =>
    rw [reading] at h
    split at h
    · next hrule =>
      split at h
      · next op hop =>
        split at h
        · next htext =>
          cases h
          simp only [build, hop, if_pos hrule, htext]
          refine makesPart_alloc hkeeps Node.noConfusion (List.Sublist.refl _) ?_
          exact ⟨id, Arena.get_alloc_self _ _, stored_alloc hkeeps List.mem_cons_self⟩
        · cases h
      · cases h
    · cases h
  | _ => cases h

theorem makesPart_nontermNonterm {rule : RuleId} {i j : NodeId} {left right : Option Part}
    (h : reading (.nontermNonterm rule left right) = some part)
    (hkeeps : arena.Keeps Part.Stored ([(i, left), (j, right)] ++ frame)) :
    MakesPart frame part (build (.nontermNonterm rule i j) arena) := by
  obtain ⟨first, rfl, hfirst⟩ := hkeeps.stored _ List.mem_cons_self
  obtain ⟨second, rfl, hsecond⟩ := hkeeps.stored _ (List.mem_cons_of_mem _ List.mem_cons_self)
  cases first with
  | expression e =>
    cases e with
    | var name =>
      cases second with
      | block ds ss =>
        rw [reading] at h
        split at h
        · next hrule =>
          cases h
          rw [build, if_pos hrule]
          refine makesPart_alloc hkeeps Node.noConfusion (List.Sublist.refl _) ?_
          exact ⟨i, j, Arena.get_alloc_self _ _, stored_alloc hkeeps List.mem_cons_self,
            stored_alloc hkeeps (List.mem_cons_of_mem _ List.mem_cons_self)⟩
        · cases h
      | _ => cases h
    | _ => cases h
  | declarations ds =>
    cases second with
    | statement s =>
      cases s with
      | compound ss =>
        rw [reading] at h
        split at h
        · next hrule =>
          cases h
          obtain ⟨ids, hget, hall⟩ := hfirst
          have hitems : arena.items i = .ok ids := by
            rw [Arena.items, hget]
            rfl
          rw [build, if_neg (by rw [hrule]; decide), if_pos hrule, hitems]
          refine makesPart_alloc hkeeps Node.noConfusion ?_ ?_
          · have hsublist := items_sublist hkeeps.apart.tidy hitems
            rw [Node.links, List.flatMap_append]
            exact hsublist.append_right _
          · exact ⟨ids, j, Arena.get_alloc_self _ _, hall.grows (arena.grows_alloc _),
              stored_alloc hkeeps (List.mem_cons_of_mem _ List.mem_cons_self)⟩
        · cases h
      | _ => cases h
    | _ => cases h
  | _ => cases h

theorem makesPart_nontermTermNonterm {rule : RuleId} {i j : NodeId} {left right : Option Part}
    (h : reading (.nontermTermNonterm rule left token right) = some part)
    (hkeeps : arena.Keeps Part.Stored ([(i, left), (j, right)] ++ frame)) :
    MakesPart frame part (build (.nontermTermNonterm rule i token j) arena) := by
  obtain ⟨first, rfl, hfirst⟩ := hkeeps.stored _ List.mem_cons_self
  obtain ⟨second, rfl, hsecond⟩ := hkeeps.stored _ (List.mem_cons_of_mem _ List.mem_cons_self)
  cases first with
  | expression a =>
    cases second with
    | expression b =>
      unfold reading at h
      dsimp only at h
      split at h
      · next hrule =>
        split at h
        · next name =>
          split at h
          · next htoken =>
            cases h
            have hop : binaryOp? rule token.kind = some .assign := by
              rw [hrule, htoken.1]
              rfl
            simp only [build, hop, htoken.2]
            refine makesPart_alloc hkeeps Node.noConfusion (List.Sublist.refl _) ?_
            rw [Part.Stored, Statement.Stored]
            exact ⟨i, j, Arena.get_alloc_self _ _, stored_alloc hkeeps List.mem_cons_self,
              stored_alloc hkeeps (List.mem_cons_of_mem _ List.mem_cons_self)⟩
          · cases h
        · cases h
      · obtain ⟨op, hop, rfl⟩ := Option.map_eq_some_iff.mp h
        obtain ⟨hkind, hsymbol⟩ := of_operator?_eq_some hop
        simp only [build, hkind]
        refine makesPart_alloc hkeeps Node.noConfusion (List.Sublist.refl _) ?_
        exact ⟨token.text, i, j, Arena.get_alloc_self _ _, hsymbol,
          stored_alloc hkeeps List.mem_cons_self,
          stored_alloc hkeeps (List.mem_cons_of_mem _ List.mem_cons_self)⟩
    | _ => cases h
  | _ => cases h

/-- Several lists of declarations hold all their lines. -/
theorem exists_lists {nodes : List (NodeId × Option Part)} {lines : List (List Declaration)}
    (hstored : ∀ entry ∈ nodes, ∃ part, entry.2 = some part ∧ Part.Stored arena part entry.1)
    (h : List.Forall₂ (fun value ds => declarations? value = some ds) (nodes.map Prod.snd) lines) :
    ∃ lists, List.Forall₂ (fun id items => arena.items id = .ok items) (nodes.map Prod.fst) lists ∧
      StoredDeclarations arena lines.flatten lists.flatten := by
  induction nodes generalizing lines with
  | nil =>
    cases h
    exact ⟨[], .nil, .nil⟩
  | cons entry nodes ih =>
    obtain ⟨⟨part, hpart, hfirst⟩, hrest⟩ := List.forall_mem_cons.mp hstored
    rw [List.map_cons, List.forall₂_cons_left_iff] at h
    obtain ⟨ds, more, hds, hmore, rfl⟩ := h
    obtain ⟨items, hitems, hall⟩ := exists_declarations hds hpart hfirst
    obtain ⟨lists, hlists, halls⟩ := ih hrest hmore
    refine ⟨items :: lists, .cons hitems hlists, ?_⟩
    rw [StoredDeclarations, List.flatten_cons, List.flatten_cons, List.flatMap_append]
    exact List.rel_append hall halls

theorem lists_sublist (h : arena.Tidy) {ids : List NodeId} {lists : List (List NodeId)}
    (hlists : List.Forall₂ (fun id items => arena.items id = .ok items) ids lists) :
    (lists.flatten.flatMap arena.below).Sublist (ids.flatMap arena.below) := by
  induction hlists with
  | nil => exact List.Sublist.refl _
  | cons hitems _ ih =>
    rw [List.flatten_cons, List.flatMap_append, List.flatMap_cons]
    exact (items_sublist h hitems).append ih

/-- Nodes that mean statements store them in order. -/
theorem storedAll_of_forall₂ {nodes : List (NodeId × Option Part)} {ss : List Statement}
    (hstored : ∀ entry ∈ nodes, ∃ part, entry.2 = some part ∧ Part.Stored arena part entry.1)
    (h : List.Forall₂ (fun value s => statement? value = some s) (nodes.map Prod.snd) ss) :
    Statement.StoredAll arena ss (nodes.map Prod.fst) := by
  induction nodes generalizing ss with
  | nil =>
    cases h
    rw [List.map_nil, Statement.StoredAll]
    exact True.intro
  | cons entry nodes ih =>
    obtain ⟨⟨part, hpart, hfirst⟩, hrest⟩ := List.forall_mem_cons.mp hstored
    rw [List.map_cons, List.forall₂_cons_left_iff] at h
    obtain ⟨s, more, hs, hmore, rfl⟩ := h
    rw [List.map_cons, Statement.StoredAll]
    refine ⟨?_, ih hrest hmore⟩
    rw [hpart] at hs
    cases part with
    | statement s' =>
      cases hs
      exact hfirst
    | _ => cases hs

theorem makesPart_nontermList {rule : RuleId} {nodes : List (NodeId × Option Part)}
    (h : reading (.nontermList rule (nodes.map Prod.snd)) = some part)
    (hkeeps : arena.Keeps Part.Stored (nodes ++ frame)) :
    MakesPart frame part (build (.nontermList rule (nodes.map Prod.fst)) arena) := by
  have hstored : ∀ entry ∈ nodes, ∃ part, entry.2 = some part ∧ Part.Stored arena part entry.1 :=
    fun entry hentry => hkeeps.stored entry (List.mem_append_left _ hentry)
  rw [reading] at h
  split at h
  · next hrule =>
    obtain ⟨lines, hlines, rfl⟩ := Option.map_eq_some_iff.mp h
    obtain ⟨lists, hlists, hall⟩ := exists_lists hstored (mapM_eq_some_iff.mp hlines)
    rw [build, if_pos hrule, itemsOfAll_of_forall₂ hlists]
    refine makesPart_alloc hkeeps Node.noConfusion ?_ ?_
    · exact lists_sublist hkeeps.apart.tidy hlists
    · exact ⟨_, Arena.get_alloc_self _ _, hall.grows (arena.grows_alloc _)⟩
  · next hrule =>
    split at h
    · next hrule' =>
      obtain ⟨ss, hss, rfl⟩ := Option.map_eq_some_iff.mp h
      have hall := storedAll_of_forall₂ hstored (mapM_eq_some_iff.mp hss)
      rw [build, if_neg hrule, if_pos hrule']
      refine makesPart_alloc hkeeps Node.noConfusion (List.Sublist.refl _) ?_
      exact ⟨_, Arena.get_alloc_self _ _, Statement.StoredAll.grows (arena.grows_alloc _) hall⟩
    · cases h

theorem variables_of_line? {t : TypeName} {names : List Name} {line : Declaration}
    (h : line? t names = some line) : line.variables = names.map fun name => (name, t) := by
  cases names with
  | nil => cases h
  | cons first others =>
    cases h
    rfl

/-- The tokens of names give the nodes of their declarations. -/
theorem map_varDecl {tokens : List (Token Kind)} {names : List Name}
    (h : List.Forall₂ (fun token name => name? token = some name) tokens names) (type : String) :
    tokens.map (fun token => Node.varDecl token.text type) =
      names.map fun name => .varDecl name.text type := by
  induction h with
  | nil => rfl
  | cons hname _ ih => rw [List.map_cons, List.map_cons, ih, text_of_name? hname]

/-- A node is made for each name of a line. -/
theorem makesPart_line {rule : RuleId} {terms : List (Token Kind)} {id : NodeId} {t : TypeName}
    (h : reading (.termNontermList rule terms [some (.type t)]) = some part)
    (hkeeps : arena.Keeps Part.Stored ([(id, some (.type t))] ++ frame)) :
    MakesPart frame part (build (.termNontermList rule terms [id]) arena) := by
  obtain ⟨part', heq, hget⟩ := hkeeps.stored _ List.mem_cons_self
  cases heq
  have hget : arena.get id = .ok (.raw t.text) := hget
  rw [reading] at h
  split at h
  · next hrule =>
    obtain ⟨line, hline, rfl⟩ := Option.map_eq_some_iff.mp h
    obtain ⟨names, hnames, hline⟩ := Option.bind_eq_some_iff.mp hline
    have hdeclared : declared? arena terms [id] =
        .ok (some (names.map fun name => .varDecl name.text t.text)) := by
      rw [declared?, hget]
      exact congrArg (Except.ok ∘ some) (map_varDecl (mapM_eq_some_iff.mp hnames) t.text)
    rw [build, if_pos hrule, hdeclared]
    generalize hnodes : (names.map fun name => Node.varDecl name.text t.text) = nodes
    have hframe : arena.Keeps Part.Stored frame := hkeeps.mono (List.sublist_cons_self _ _).subperm
    have hapart : (arena.allocAll nodes).2.Apart
        ((arena.allocAll nodes).1 ++ frame.map Prod.fst) := by
      refine hframe.apart.allocAll ?_
      rw [← hnodes, List.forall_mem_map]
      exact fun name _ => ⟨Node.noConfusion, rfl⟩
    refine ⟨_, _, rfl, hapart.alloc Node.noConfusion (List.Sublist.refl _), ?_⟩
    have hgrows := (arena.allocAll nodes).2.grows_alloc (.rawList (arena.allocAll nodes).1)
    refine List.forall_mem_cons.mpr ⟨⟨_, rfl, ⟨_, Arena.get_alloc_self _ _, ?_⟩⟩,
      hframe.grows Part.lasting_stored ((arena.grows_allocAll nodes).trans hgrows)⟩
    refine StoredDeclarations.grows ?_ hgrows
    rw [StoredDeclarations, List.flatMap_singleton, variables_of_line? hline,
      List.forall₂_map_left_iff]
    have hthere := Arena.Apart.forall₂_get_allocAll nodes arena
    rw [← hnodes, List.forall₂_map_left_iff] at hthere
    rw [← hnodes]
    exact hthere
  · cases h

/-- **A node that means a part of a program** is made, stores that part, and takes the place of the
nodes that it is made of. -/
theorem makesPart_build {reduction : Reduction (Token Kind) (NodeId × Option Part)}
    (h : reading (reduction.map Prod.snd) = some part)
    (hkeeps : arena.Keeps Part.Stored (reduction.nodes ++ frame)) :
    MakesPart frame part (build (reduction.map Prod.fst) arena) := by
  cases reduction with
  | null => cases h
  | empty rule =>
    simp only [Reduction.map, reading] at h
    split at h
    · cases h
      exact makesPart_alloc hkeeps Node.noConfusion (List.Sublist.refl _) (Arena.get_alloc_self _ _)
    · cases h
  | term rule token => exact makesPart_term h hkeeps
  | nonterm rule child => exact makesPart_nonterm h hkeeps
  | termNonterm rule token operand => exact makesPart_termNonterm h hkeeps
  | nontermNonterm rule left right => exact makesPart_nontermNonterm h hkeeps
  | nontermTermNonterm rule left token right => exact makesPart_nontermTermNonterm h hkeeps
  | nontermList rule nodes => exact makesPart_nontermList h hkeeps
  | termNontermList rule terms nodes =>
    rcases nodes with _ | ⟨⟨id, value⟩, nodes⟩
    · cases h
    · obtain ⟨child, rfl, -⟩ := hkeeps.stored _ List.mem_cons_self
      cases child with
      | type t =>
        cases nodes with
        | nil => exact makesPart_line h hkeeps
        | cons => cases h
      | _ => cases h

/-- **The nodes that are held store their parts and share nothing**, and no fault comes up. -/
def custody : Custody grammar builder reading WellSpelled where
  holds world held := ∃ arena, world = .ok arena ∧ arena.Keeps Part.Stored held
  drop h hkept := by
    obtain ⟨arena, rfl, hkeeps⟩ := h
    exact ⟨arena, rfl, hkeeps.mono hkept⟩
  make reduction {world frame} hasks h := by
    obtain ⟨arena, rfl, hkeeps⟩ := h
    obtain ⟨part, hpart⟩ := grammar_sorted.of_asks hasks
    obtain ⟨id, arena', hbuild, hkeeps'⟩ := makesPart_build hpart hkeeps
    simp only [builder, hbuild, hpart]
    exact ⟨arena', rfl, hkeeps'⟩

/-- **The tree of a text stores the program that the text is read as**, and its nodes share
nothing. -/
theorem exists_yields_of_parse {source : String} {tree : Tree} (h : parse source = .ok tree) :
    ∃ p : Program,
      grammar.Yields reading (.nonterm program) (Cursor.start table source).tokens
        (.ofValue (some (.program p))) ∧
      p.Stored tree.arena tree.root ∧ tree.arena.Apart [tree.root] := by
  have hahead := Cursor.ahead_tokens (Cursor.start table source)
  have hspelled : ∀ token ∈ (Cursor.start table source).tokens, WellSpelled token :=
    fun token htoken => wellSpelled_of_spelled (Cursor.spelled_of_mem_tokens table source token htoken)
  have hclean : Clean WellSpelled (Cursor.start table source) := hahead.clean hspelled
  unfold parse at h
  split at h
  · cases h
  · next root arena hparse =>
    cases h
    obtain ⟨value, hyields, arena', heq, hkeeps⟩ :=
      custody.parse_keeps hahead hclean ⟨.empty, rfl, .empty⟩ hparse
    cases heq
    obtain ⟨p, hvalue⟩ : Right program value := grammar_sorted.of_yields hyields hspelled
    subst hvalue
    obtain ⟨part, heq, hstored⟩ := hkeeps.stored _ List.mem_cons_self
    cases heq
    exact ⟨p, hyields, hstored, hkeeps.apart⟩
  · cases h

end GrammarKit.Pascal
