import ScriptSandbox.Proofs.Scope.Binding
import ScriptSandbox.Proofs.Scope.Scanning

/-
  Which block owns a declaration.

  Of the functions and blocks around a declaration the nearest decides: a block owns it, and a
  function keeps it from the blocks further out (`owningBlock?`). Below a block, the scan for its
  names reads just the declarations that it owns (`lexicalNamesIn_eq_flatMap`), so the names of a
  block are its parameters and those of the sites that it owns (`blockNames_perm`). Each site has
  one owner at most, so the names of all blocks together are the names of all owned sites, each
  counted once (`flatMap_blockNames_perm`).
-/

namespace ScriptSandbox.Scope

open Syntax

/-- The names that a node declares for the block around it: the name of a class declaration, and
    what a declarator binds unless it is a `var`. -/
def scopedNames (parent : Option Node) (n : Node) : List String :=
  match n.kind with
  | .classDeclaration => (nameOf? n).toList
  | .variableDeclarator =>
    if declaratorBinding parent = .lexical then fieldNames n "id" else []
  | _ => []

/-- The names that a catch clause declares for itself: those of its parameter. -/
def caughtNames (n : Node) : List String :=
  if n.kind = .catchClause then fieldNames n "param" else []

/-- The block that owns what is declared below a path: of the functions and blocks on it the
    nearest, if that is a block. -/
def owningBlock? (path : List Node) : Option NodeId :=
  ((path.find? endsBlock).filter (·.kind.opensBlock)).map (·.id)

/-- The sites whose declarations belong to a block. -/
def ownedSites (t : Tree) (block : NodeId) : List (Node × List Node) :=
  t.sites.filter fun s => owningBlock? s.2 = some block

/-- The names declared at a site for the block that owns it. -/
def siteNames (s : Node × List Node) : List String := scopedNames s.2.head? s.1

variable {d : Document} {t : Tree} {b n m p : Node} {above path rest : List Node}

/-! ## Owners -/

theorem owningBlock?_of_opens (hb : b.kind.opensBlock = true) :
    owningBlock? (b :: above) = some b.id := by
  simp [owningBlock?, endsBlock, hb]

theorem owningBlock?_cons (hn : endsBlock n = false) :
    owningBlock? (n :: path) = owningBlock? path := by
  simp [owningBlock?, hn]

/-- The owner is a block on the path with no function and no other block before it. -/
theorem owningBlock?_eq_some_iff {id : NodeId} :
    owningBlock? path = some id ↔
      ∃ between c rest, path = between ++ c :: rest ∧ (∀ x ∈ between, endsBlock x = false) ∧
        c.kind.opensBlock = true ∧ c.id = id := by
  constructor
  · intro h
    obtain ⟨c, hc, rfl⟩ := Option.map_eq_some_iff.mp h
    obtain ⟨hfind, hopens⟩ := Option.filter_eq_some_iff.mp hc
    obtain ⟨-, between, rest, rfl, hbetween⟩ := List.find?_eq_some_iff_append.mp hfind
    exact ⟨between, c, rest, rfl, fun x hx => by simpa using hbetween x hx, hopens, rfl⟩
  · rintro ⟨between, c, rest, rfl, hbetween, hopens, rfl⟩
    induction between with
    | nil => exact owningBlock?_of_opens hopens
    | cons x between ih =>
      obtain ⟨hx, hbetween⟩ := List.forall_mem_cons.mp hbetween
      exact (owningBlock?_cons hx).trans (ih hbetween)

/-- The owner of what is declared at a site is the nearest block around it, and no function stands
    in between. -/
theorem owningBlock?_eq_some_iff_site (ht : Tree.ofDocument d = .ok t) (hb : (b, above) ∈ t.sites)
    (hopens : b.kind.opensBlock = true) (hm : (m, path) ∈ t.sites) :
    owningBlock? path = some b.id ↔
      ∃ between, path = between ++ b :: above ∧ ∀ x ∈ between, endsBlock x = false := by
  rw [owningBlock?_eq_some_iff]
  constructor
  · rintro ⟨between, c, rest, rfl, hbetween, -, hid⟩
    cases Tree.site_unique ht (Tree.mem_sites_of_append hm).1 hb hid
    exact ⟨between, rfl, hbetween⟩
  · rintro ⟨between, rfl, hbetween⟩
    exact ⟨between, b, above, rfl, hbetween, hopens, rfl⟩

/-! ## One block -/

theorem scopedNames_of_ends {parent : Option Node} (hn : endsBlock n = true) :
    scopedNames parent n = [] := by
  unfold scopedNames
  split
  · next hk => simp [endsBlock, hk, Kind.isFunction, Kind.opensBlock] at hn
  · next hk => simp [endsBlock, hk, Kind.isFunction, Kind.opensBlock] at hn
  · rfl

/-- Of what a node declares, the block-scoped part is for the block around it unless the node is a
    catch clause. -/
theorem map_name_declarations {parent : Option Node} (hn : endsBlock n = false) :
    ((declarations parent n).filter (·.binding = .lexical)).map (·.name) =
      scopedNames parent n := by
  have hall (names : List String) :
      ((declareAll n.id .lexical names).filter (·.binding = .lexical)).map (·.name) = names := by
    simp [declareAll, List.filter_map, Function.comp_def]
  have hnone (names : List String) :
      ((declareAll n.id .var names).filter (·.binding = .lexical)).map (·.name) = [] := by
    simp [declareAll, List.filter_map, Function.comp_def]
  unfold declarations scopedNames
  cases hk : n.kind with
  | variableDeclarator =>
    cases hbinding : declaratorBinding parent with
    | var => exact hnone _
    | lexical => exact hall _
  | functionDeclaration => exact hnone _
  | classDeclaration => exact hall _
  | catchClause => simp [endsBlock, hk, Kind.opensBlock] at hn
  | _ => rfl

/-- Behind a function or another block, a block owns nothing. -/
theorem owningBlock?_ne_of_ends (ht : Tree.ofDocument d = .ok t) {between : List Node}
    {id : NodeId} (hend : endsBlock n = true) (hm : (m, between ++ n :: path) ∈ t.sites)
    (howner : owningBlock? path = some id) :
    owningBlock? (between ++ n :: path) ≠ some id := by
  intro hbelow
  obtain ⟨inner, c, rest, rfl, -, -, rfl⟩ := owningBlock?_eq_some_iff.mp howner
  obtain ⟨nearer, x, rest', hpath, hnearer, -, hid⟩ := owningBlock?_eq_some_iff.mp hbelow
  have hc : (c, rest) ∈ t.sites := by
    have happend : between ++ n :: (inner ++ c :: rest) = (between ++ n :: inner) ++ c :: rest := by
      simp
    exact (Tree.mem_sites_of_append (happend ▸ hm)).1
  cases Tree.site_unique ht (Tree.mem_sites_of_append (hpath ▸ hm)).1 hc hid
  have hnearer' : nearer = between ++ n :: inner :=
    List.append_cancel_right (hpath.symm.trans (by simp))
  have := hnearer n (by simp [hnearer'])
  simp [hend] at this

/-- Below a block, the scan of a subtree reads the declarations in it that the block owns. -/
theorem lexicalNamesIn_eq_flatMap (ht : Tree.ofDocument d = .ok t) {id : NodeId}
    (hn : (n, p :: rest) ∈ t.sites) (howner : owningBlock? (p :: rest) = some id) :
    lexicalNamesIn p n =
      ((n.sites (p :: rest)).filter fun s => owningBlock? s.2 = some id).flatMap siteNames := by
  induction n using Node.induct generalizing p rest with
  | step n ih =>
    have hstep : lexicalNamesIn p n = if endsBlock n then [] else
        ((declarations (some p) n).filter (·.binding = .lexical)).map (·.name) ++
          n.children.flatMap (lexicalNamesIn n) := lexicalNamesIn_eq p n
    rw [hstep, Node.sites_eq]
    cases hend : endsBlock n with
    | true =>
      refine (List.flatMap_eq_nil_iff.mpr fun s hs => ?_).symm
      obtain ⟨hs, hown⟩ := List.mem_filter.mp hs
      rcases List.mem_cons.mp hs with rfl | hs
      · exact scopedNames_of_ends hend
      · obtain ⟨c, hc, hs⟩ := List.mem_flatMap.mp hs
        have hsite := Node.sites_subset (Tree.mem_sites_cons.mpr ⟨hn, hc⟩) hs
        obtain ⟨m, path⟩ := s
        obtain ⟨between, rfl⟩ : ∃ between, path = between ++ n :: p :: rest :=
          Node.exists_between hs
        exact absurd (of_decide_eq_true hown) (owningBlock?_ne_of_ends ht hend hsite howner)
    | false =>
      rw [if_neg Bool.false_ne_true, map_name_declarations hend,
        List.filter_cons_of_pos (by simpa using howner), List.flatMap_cons, List.filter_flatMap,
        List.flatMap_assoc]
      refine congrArg _ (List.flatMap_congr fun c hc => ?_)
      exact ih c hc (Tree.mem_sites_cons.mpr ⟨hn, hc⟩) ((owningBlock?_cons hend).trans howner)

theorem nodup_sites (ht : Tree.ofDocument d = .ok t) (hn : (n, path) ∈ t.sites) :
    (n.sites path).Nodup := by
  obtain ⟨i, j, hs⟩ := Node.exists_spans_of_mem_sites (Tree.sound_ofDocument ht).1 hn
  refine List.Nodup.of_map (·.1.id) ?_
  rw [(Node.map_id_sites hs path).2]
  exact List.nodup_range'

/-- All that a block owns is below it. -/
theorem filter_sites_perm (ht : Tree.ofDocument d = .ok t) (hb : (b, above) ∈ t.sites)
    (hopens : b.kind.opensBlock = true) :
    ((b.sites above).filter fun s => owningBlock? s.2 = some b.id).Perm (ownedSites t b.id) := by
  have hall : t.sites.Nodup := nodup_sites ht (Node.self_mem_sites t.root [])
  refine (List.perm_ext_iff_of_nodup ((nodup_sites ht hb).filter _) (hall.filter _)).mpr
    fun s => ?_
  rw [List.mem_filter, List.mem_filter]
  refine ⟨fun ⟨hs, howner⟩ => ⟨Node.sites_subset hb hs, howner⟩, fun ⟨hs, howner⟩ => ⟨?_, howner⟩⟩
  obtain ⟨m, path⟩ := s
  obtain ⟨between, rfl, -⟩ :=
    (owningBlock?_eq_some_iff_site ht hb hopens hs).mp (of_decide_eq_true howner)
  exact (Tree.mem_sites_of_append hs).2

/-- The names of a block are its parameters and what is declared at the sites that it owns. -/
theorem blockNames_perm (ht : Tree.ofDocument d = .ok t) (hb : (b, above) ∈ t.sites)
    (hopens : b.kind.opensBlock = true) :
    (blockNames b).Perm (caughtNames b ++ (ownedSites t b.id).flatMap siteNames) := by
  have hself : siteNames (b, above) = [] := scopedNames_of_ends (by simp [endsBlock, hopens])
  have hchildren : lexicalNamesBelow b b.children =
      ((b.children.flatMap (·.sites (b :: above))).filter
        fun s => owningBlock? s.2 = some b.id).flatMap siteNames := by
    rw [lexicalNamesBelow_eq, List.filter_flatMap, List.flatMap_assoc]
    exact List.flatMap_congr fun c hc => lexicalNamesIn_eq_flatMap ht
      (Tree.mem_sites_cons.mpr ⟨hb, hc⟩) (owningBlock?_of_opens hopens)
  -- the block itself declares nothing for a block, so its subtree may be read as a whole
  have hbelow : lexicalNamesBelow b b.children =
      ((b.sites above).filter fun s => owningBlock? s.2 = some b.id).flatMap siteNames := by
    rw [hchildren, Node.sites_eq, List.filter_cons]
    split
    · rw [List.flatMap_cons, hself, List.nil_append]
    · rfl
  unfold blockNames
  rw [hbelow]
  exact ((filter_sites_perm ht hb hopens).flatMap_right siteNames).append_left _

/-! ## All blocks -/

/-- The sites of a tree that open a block. -/
def blockSites (t : Tree) : List (Node × List Node) := t.sites.filter (·.1.kind.opensBlock)

section

variable {α β γ : Type}

/-- What is collected for each `b` over its own entries is what is collected over all entries for
    each `b` that they belong to. -/
theorem flatMap_filter_perm (belongs : β → α → Bool) (f : α → List γ) (bs : List β)
    (xs : List α) :
    (bs.flatMap fun b => (xs.filter (belongs b)).flatMap f).Perm
      (xs.flatMap fun x => bs.flatMap fun b => if belongs b x then f x else []) := by
  induction xs with
  | nil => simp
  | cons x xs ih =>
    have hcons (b : β) : ((x :: xs).filter (belongs b)).flatMap f =
        (if belongs b x then f x else []) ++ (xs.filter (belongs b)).flatMap f := by
      cases hb : belongs b x <;> simp [hb]
    simp only [hcons, List.flatMap_cons]
    exact (List.flatMap_append_perm bs _ _).symm.trans (ih.append_left _)

/-- An entry that belongs to one `b` is collected once. -/
theorem flatMap_ite_of_unique {belongs : β → Prop} [DecidablePred belongs] {bs : List β}
    (hbs : bs.Nodup) (hunique : ∀ b ∈ bs, ∀ b' ∈ bs, belongs b → belongs b' → b = b')
    (xs : List γ) :
    bs.flatMap (fun b => if belongs b then xs else []) =
      if ∃ b ∈ bs, belongs b then xs else [] := by
  induction bs with
  | nil => simp
  | cons b bs ih =>
    obtain ⟨hnot, hbs⟩ := List.nodup_cons.mp hbs
    have ih := ih hbs fun b hb b' hb' =>
      hunique b (List.mem_cons_of_mem _ hb) b' (List.mem_cons_of_mem _ hb')
    rw [List.flatMap_cons, ih]
    by_cases hb : belongs b
    · have hrest : ¬ ∃ b' ∈ bs, belongs b' := fun ⟨b', hmem, hb'⟩ =>
        hnot (hunique b List.mem_cons_self b' (List.mem_cons_of_mem _ hmem) hb hb' ▸ hmem)
      rw [if_pos hb, if_neg hrest, if_pos ⟨b, List.mem_cons_self, hb⟩, List.append_nil]
    · simp [hb]

end

theorem exists_owner_iff (hm : (m, path) ∈ t.sites) :
    (∃ b ∈ blockSites t, owningBlock? path = some b.1.id) ↔ (owningBlock? path).isSome := by
  constructor
  · rintro ⟨b, -, howner⟩
    rw [howner]
    rfl
  · intro h
    obtain ⟨id, hid⟩ := Option.isSome_iff_exists.mp h
    obtain ⟨between, c, rest, rfl, -, hopens, rfl⟩ := owningBlock?_eq_some_iff.mp hid
    exact ⟨(c, rest), List.mem_filter.mpr ⟨(Tree.mem_sites_of_append hm).1, hopens⟩, hid⟩

/-- The names of all blocks together: the parameters of the catch clauses and what is declared at
    each site that a block owns, once for each site. -/
theorem flatMap_blockNames_perm (ht : Tree.ofDocument d = .ok t) :
    ((blockSites t).flatMap fun s => blockNames s.1).Perm
      ((blockSites t).flatMap (fun s => caughtNames s.1) ++
        t.sites.flatMap fun s => if (owningBlock? s.2).isSome then siteNames s else []) := by
  have hall : t.sites.Nodup := nodup_sites ht (Node.self_mem_sites t.root [])
  have hone (s : Node × List Node) (hs : s ∈ t.sites) :
      ((blockSites t).flatMap fun b => if owningBlock? s.2 = some b.1.id then siteNames s else []) =
        if (owningBlock? s.2).isSome then siteNames s else [] := by
    refine (flatMap_ite_of_unique (hall.filter _) (fun b hb b' hb' h h' => ?_) _).trans ?_
    · exact Tree.site_unique ht (List.mem_of_mem_filter hb) (List.mem_of_mem_filter hb')
        (Option.some_inj.mp (h.symm.trans h'))
    · exact if_congr (exists_owner_iff hs) rfl rfl
  have hblocks : ((blockSites t).flatMap fun s => blockNames s.1).Perm
      ((blockSites t).flatMap fun s =>
        caughtNames s.1 ++ (ownedSites t s.1.id).flatMap siteNames) :=
    List.Perm.flatMap_left _ fun s hs =>
      blockNames_perm ht (List.mem_of_mem_filter hs) (List.mem_filter.mp hs).2
  have howned : ((blockSites t).flatMap fun b => (ownedSites t b.1.id).flatMap siteNames).Perm
      (t.sites.flatMap fun s => if (owningBlock? s.2).isSome then siteNames s else []) := by
    have hswap := flatMap_filter_perm (fun (b : Node × List Node) (s : Node × List Node) =>
      decide (owningBlock? s.2 = some b.1.id)) siteNames (blockSites t) t.sites
    simp only [decide_eq_true_eq] at hswap
    rwa [List.flatMap_congr hone] at hswap
  exact hblocks.trans ((List.flatMap_append_perm _ _ _).symm.trans (howned.append_left _))

/-- The names of a block are those of its own parameter and those of the class declarations and
    declarators other than `var` whose nearest block it is, with no function in between; the scan
    of the arena for them ends and lists these. No site belongs to two blocks: over all blocks each
    declaration that a block owns is counted once. -/
theorem block_declarations_owned (ht : Tree.ofDocument d = .ok t) :
    (∀ b above, (b, above) ∈ t.sites → b.kind.opensBlock = true →
      Checked.blockNames t.arena b.id = .ok (blockNames b) ∧
      (blockNames b).Perm (caughtNames b ++ (ownedSites t b.id).flatMap siteNames) ∧
      ∀ m path, (m, path) ∈ ownedSites t b.id ↔
        (m, path) ∈ t.sites ∧ ∃ between, path = between ++ b :: above ∧
          ∀ x ∈ between, x.kind.isFunction = false ∧ x.kind.opensBlock = false) ∧
    (∀ b ∈ blockSites t, ∀ b' ∈ blockSites t,
      (∃ s, s ∈ ownedSites t b.1.id ∧ s ∈ ownedSites t b'.1.id) → b = b') ∧
    ((blockSites t).flatMap fun s => blockNames s.1).Perm
      ((blockSites t).flatMap (fun s => caughtNames s.1) ++
        t.sites.flatMap fun s => if (owningBlock? s.2).isSome then siteNames s else []) := by
  refine ⟨fun b above hb hopens => ⟨Checked.blockNames_eq ht hb, blockNames_perm ht hb hopens,
    fun m path => ?_⟩, ?_, flatMap_blockNames_perm ht⟩
  · rw [ownedSites, List.mem_filter, decide_eq_true_eq]
    refine and_congr_right fun hm => ?_
    rw [owningBlock?_eq_some_iff_site ht hb hopens hm]
    simp only [endsBlock, Bool.or_eq_false_iff]
  · rintro b hb b' hb' ⟨s, hs, hs'⟩
    have howner := of_decide_eq_true (List.mem_filter.mp hs).2
    have howner' := of_decide_eq_true (List.mem_filter.mp hs').2
    exact Tree.site_unique ht (List.mem_of_mem_filter hb) (List.mem_of_mem_filter hb')
      (Option.some_inj.mp (howner.symm.trans howner'))

/-- `for (let i;;) try {} catch (e) { class C {} (function () { let inner; }); let i; }` -/
def nestedBlocksDocument : Document :=
  syntaxDocument "Program" [("body", .array [
    syntaxDocument "ForStatement" [("init", declarationDocument "let" "i"),
      ("body", syntaxDocument "TryStatement" [("block", blockDocument []),
        ("handler", syntaxDocument "CatchClause" [("param", identifierDocument "e"),
          ("body", blockDocument [
            syntaxDocument "ClassDeclaration" [("id", identifierDocument "C"),
              ("body", syntaxDocument "ClassBody" [("body", .array [])])],
            statementDocument (functionDocument none [] [declarationDocument "let" "inner"]),
            declarationDocument "let" "i"])])])]])]

def nestedBlocksTree : Tree := treeOf nestedBlocksDocument

/-- In the program the two `i` belong to two blocks, and what the function declares is kept from
    both. -/
theorem block_declarations_owned_nested :
    Tree.ofDocument nestedBlocksDocument = .ok nestedBlocksTree ∧
    (blockSites nestedBlocksTree).map (fun s => (s.1.kind, blockNames s.1)) =
      [(.program, []), (.forStatement, ["i"]), (.blockStatement, []), (.catchClause, ["e"]),
        (.blockStatement, ["C", "i"]), (.blockStatement, ["inner"])] ∧
    (∀ s ∈ blockSites nestedBlocksTree,
      Checked.blockNames nestedBlocksTree.arena s.1.id = .ok (blockNames s.1) ∧
      (blockNames s.1).Perm
        (caughtNames s.1 ++ (ownedSites nestedBlocksTree s.1.id).flatMap siteNames)) ∧
    ∀ b ∈ blockSites nestedBlocksTree, ∀ b' ∈ blockSites nestedBlocksTree,
      (∃ s, s ∈ ownedSites nestedBlocksTree b.1.id ∧ s ∈ ownedSites nestedBlocksTree b'.1.id) →
      b = b' := by
  have ht : Tree.ofDocument nestedBlocksDocument = .ok nestedBlocksTree := rfl
  obtain ⟨heach, hone, -⟩ := block_declarations_owned ht
  refine ⟨ht, by decide +kernel, fun s hs => ?_, hone⟩
  obtain ⟨hsite, hopens⟩ := List.mem_filter.mp hs
  obtain ⟨hscan, hperm, -⟩ := heach s.1 s.2 hsite hopens
  exact ⟨hscan, hperm⟩

end ScriptSandbox.Scope
