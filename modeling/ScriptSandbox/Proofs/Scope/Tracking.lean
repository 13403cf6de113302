import ScriptSandbox.Proofs.Scope.Handover

/-
  Walks with and without tracking.

  The walk that tracks block-scoped names and the one that does not go side by side. At every moment
  the tables agree in all but what depends on blocks (`Pass.Refines`): a name that a block binds is
  settled at the reference in the one walk and waits in the frame in the other, so a frame has fewer
  names in the first walk, and a context ends up with fewer free ones. Where nothing is bound by
  blocks, the frames have the same names and the walks are the same; `exact` carries that along.
-/

namespace ScriptSandbox.Scope

open Syntax

variable {t : Tree} {n m : Node} {path around : List Node} {decl : Declaration} {exact : Prop}

/-! ## Trees without block-scoped declarations -/

/-- No class is declared, no parameter of a catch clause, and no name by a declarator that is not a
    `var`. -/
structure VarsOnly (t : Tree) : Prop where
  classes : ∀ {m path}, (m, path) ∈ t.sites → m.kind = .classDeclaration → nameOf? m = none
  parameters : ∀ {m path}, (m, path) ∈ t.sites → m.kind = .catchClause → fieldNames m "param" = []
  declarators : ∀ {m path}, (m, path) ∈ t.sites → m.kind = .variableDeclarator →
    declaratorBinding path.head? = .lexical → fieldNames m "id" = []

namespace VarsOnly

variable (h : VarsOnly t)
include h

theorem not_makes_lexical (hm : (m, path) ∈ t.sites) (name : String) :
    ¬ Makes .lexical path.head? m name := by
  intro hmakes
  obtain ⟨decl, hdecl, -⟩ := List.mem_map.mp (mem_names_iff_makes.mpr hmakes)
  obtain ⟨hmem, hb⟩ := List.mem_filter.mp hdecl
  have hb : decl.binding = .lexical := of_decide_eq_true hb
  unfold declarations at hmem
  split at hmem
  · next hk =>
    obtain ⟨x, hx, rfl⟩ := List.mem_map.mp hmem
    rw [h.declarators hm hk hb] at hx
    cases hx
  · obtain ⟨x, -, rfl⟩ := List.mem_map.mp hmem
    cases hb
  · next hk =>
    rw [h.classes hm hk] at hmem
    cases hmem
  · next hk =>
    rw [h.parameters hm hk] at hmem
    cases hmem
  · cases hmem

theorem binding_eq (hm : (m, path) ∈ t.sites) (hd : decl ∈ declarations path.head? m) :
    decl.binding = .var := by
  cases hb : decl.binding with
  | var => rfl
  | lexical =>
    refine absurd (mem_names_iff_makes.mp ?_) (h.not_makes_lexical hm decl.name)
    exact List.mem_map.mpr ⟨decl, List.mem_filter.mpr ⟨hd, decide_eq_true hb⟩, rfl⟩

theorem binding_eq_of_hoisted (hn : (n, around) ∈ t.sites) (hd : decl ∈ hoisted n) :
    decl.binding = .var := by
  obtain ⟨m, between, hm, -, hd⟩ := exists_site_of_mem_hoisted hn hd
  exact h.binding_eq hm hd

theorem blockNames_eq (hn : (n, around) ∈ t.sites) : blockNames n = [] := by
  refine List.eq_nil_iff_forall_not_mem.mpr fun name hname => ?_
  rcases List.mem_append.mp hname with hname | hname
  · split at hname
    · next hk =>
      rw [h.parameters hn hk] at hname
      cases hname
    · cases hname
  · rw [lexicalNamesBelow_eq, List.mem_flatMap] at hname
    obtain ⟨c, hc, hname⟩ := hname
    obtain ⟨m, path, hm, -, hmakes⟩ := (mem_lexicalNamesIn around).mp hname
    have hsite : (m, path) ∈ t.sites :=
      Node.sites_subset (Tree.mem_sites_cons.mpr ⟨hn, hc⟩) (Node.sitesUntil_subset hm)
    exact h.not_makes_lexical hsite name hmakes

end VarsOnly

/-! ## What the two walks have in common -/

/-- A frame of the tracking walk and that of the other. -/
structure Frame.Refines (exact : Prop) (f g : Frame) : Prop where
  scope : f.scope = g.scope
  refs : ∀ name ∈ f.refs, name ∈ g.refs
  blocks : g.blocks = []
  same : exact → f.refs = g.refs ∧ f.captured = g.captured ∧ ∀ b ∈ f.blocks, b = ∅

/-- A scope of the tracking walk and that of the other. -/
structure FunctionScope.Refines (exact : Prop) (s s' : FunctionScope) : Prop where
  node : s.node = s'.node
  parent : s.parent = s'.parent
  bindsArguments : s.bindsArguments = s'.bindsArguments
  vars : s.vars = s'.vars
  funcs : s.funcs = s'.funcs
  untracked : s'.lexicals = ∅
  freevars : ∀ name ∈ s.freevars, name ∈ s'.freevars
  same : exact → s = s'

/-- The tables of the two walks. -/
structure ScopeTable.Refines (exact : Prop) (table table' : ScopeTable) : Prop where
  info : table.info = table'.info
  size : table.scopes.size = table'.scopes.size
  scopes : ∀ {i : ScopeId} {s s' : FunctionScope}, table.scopes[i]? = some s →
    table'.scopes[i]? = some s' → s.Refines exact s'

/-- The tracking walk and the other. -/
structure Pass.Refines (exact : Prop) (p q : Pass) : Prop where
  frames : List.Forall₂ (Frame.Refines exact) p.frames q.frames
  table : p.table.Refines exact q.table

/-! ## Scopes -/

namespace FunctionScope.Refines

variable {s s' : FunctionScope}

theorem declaration?_eq (h : s.Refines exact s') (name : String) :
    s.declaration? name = s'.declaration? name := by
  simp only [declaration?, h.vars, h.bindsArguments, h.node]

theorem recordIn (h : s.Refines exact s') (hd : exact → decl.binding = .var) :
    (s.recordIn true decl).Refines exact (s'.recordIn false decl) := by
  unfold FunctionScope.recordIn
  cases hb : decl.binding with
  | var =>
    exact ⟨h.node, h.parent, h.bindsArguments, by rw [h.vars], h.funcs, h.untracked, h.freevars,
      fun he => by rw [h.same he]⟩
  | lexical =>
    refine ⟨h.node, h.parent, h.bindsArguments, h.vars, h.funcs, h.untracked, h.freevars,
      fun he => ?_⟩
    cases hb.symm.trans (hd he)

theorem foldl_recordIn (h : s.Refines exact s') (ds : List Declaration)
    (hds : exact → ∀ decl ∈ ds, decl.binding = .var) :
    (ds.foldl (FunctionScope.recordIn true) s).Refines exact
      (ds.foldl (FunctionScope.recordIn false) s') := by
  induction ds generalizing s s' with
  | nil => exact h
  | cons decl ds ih =>
    exact ih (h.recordIn fun he => hds he decl List.mem_cons_self)
      fun he d hd => hds he d (List.mem_cons_of_mem _ hd)

theorem addFunction (h : s.Refines exact s') (name : String) (id : NodeId) :
    Refines exact { s with funcs := s.funcs.insert name id }
      { s' with funcs := s'.funcs.insert name id } :=
  ⟨h.node, h.parent, h.bindsArguments, h.vars, by rw [h.funcs], h.untracked, h.freevars,
    fun he => by rw [h.same he]⟩

end FunctionScope.Refines

/-! ## Tables -/

namespace ScopeTable.Refines

variable {table table' : ScopeTable}

theorem modifyInfo (h : table.Refines exact table') (id : NodeId) (f : NodeInfo → NodeInfo) :
    (table.modifyInfo id f).Refines exact (table'.modifyInfo id f) :=
  ⟨by rw [ScopeTable.modifyInfo, ScopeTable.modifyInfo, h.info], h.size, h.scopes⟩

theorem modifyScope (h : table.Refines exact table') {f g : FunctionScope → FunctionScope}
    (hf : ∀ {s s'}, s.Refines exact s' → (f s).Refines exact (g s')) {i i' : ScopeId}
    (hi : i = i') : (table.modifyScope i f).Refines exact (table'.modifyScope i' g) := by
  subst hi
  refine ⟨h.info, ?_, fun {j s s'} hs hs' => ?_⟩
  · rw [size_scopes_modifyScope, size_scopes_modifyScope, h.size]
  · rw [scopes_modifyScope] at hs hs'
    split at hs
    · next hi =>
      rw [if_pos hi] at hs'
      obtain ⟨u, hu, rfl⟩ := Option.map_eq_some_iff.mp hs
      obtain ⟨u', hu', rfl⟩ := Option.map_eq_some_iff.mp hs'
      exact hf (h.scopes hu hu')
    · next hi =>
      rw [if_neg hi] at hs'
      exact h.scopes hs hs'

theorem pushScope (h : table.Refines exact table') {s s' : FunctionScope}
    (hs : s.Refines exact s') : (table.pushScope s).Refines exact (table'.pushScope s') := by
  have hpush : ScopeTable.Refines exact { table with scopes := table.scopes.push s }
      { table' with scopes := table'.scopes.push s' } := by
    refine ⟨h.info, by simp [h.size], fun {i x x'} hx hx' => ?_⟩
    rw [Array.getElem?_push] at hx hx'
    split at hx
    · next hi =>
      rw [if_pos (hi.trans h.size)] at hx'
      cases hx
      cases hx'
      exact hs
    · next hi =>
      rw [if_neg fun hi' => hi (hi'.trans h.size.symm)] at hx'
      exact h.scopes hx hx'
  unfold ScopeTable.pushScope
  rw [hs.node, h.size]
  exact hpush.modifyInfo s'.node _

theorem getElem? (h : table.Refines exact table') (i : ScopeId) :
    table.scopes[i]? = none ∧ table'.scopes[i]? = none ∨
      ∃ s s', table.scopes[i]? = some s ∧ table'.scopes[i]? = some s' ∧ s.Refines exact s' := by
  by_cases hi : i < table.scopes.size
  · have hi' : i < table'.scopes.size := h.size ▸ hi
    have hs := Array.getElem?_eq_getElem hi
    have hs' := Array.getElem?_eq_getElem hi'
    exact .inr ⟨_, _, hs, hs', h.scopes hs hs'⟩
  · exact .inl ⟨Array.getElem?_eq_none (Nat.le_of_not_lt hi),
      Array.getElem?_eq_none (h.size ▸ Nat.le_of_not_lt hi)⟩

/-- Names lead the same way in both tables. -/
theorem resolve_eq (h : table.Refines exact table') (i : ScopeId) (name : String) :
    table.resolve i name = table'.resolve i name := by
  have hbinder : ∀ steps from?,
      table.binderWithin name steps from? = table'.binderWithin name steps from? := by
    intro steps
    induction steps with
    | zero => exact fun _ => rfl
    | succ steps ih =>
      intro from?
      cases from? with
      | none => rfl
      | some i =>
        unfold binderWithin
        rcases h.getElem? i with ⟨hs, hs'⟩ | ⟨s, s', hs, hs', hss⟩
        · simp only [hs, hs']
        · simp only [hs, hs', hss.declaration?_eq, hss.parent, ih]
  rw [resolve, resolve, hbinder, h.size]

theorem eq (h : table.Refines exact table') (he : exact) : table = table' := by
  have hscopes : table.scopes = table'.scopes := by
    apply Array.ext_getElem?
    intro i
    rcases h.getElem? i with ⟨hs, hs'⟩ | ⟨s, s', hs, hs', hss⟩
    · rw [hs, hs']
    · rw [hs, hs', hss.same he]
  obtain ⟨info, scopes⟩ := table
  obtain ⟨info', scopes'⟩ := table'
  cases h.info
  cases hscopes
  rfl

end ScopeTable.Refines

/-! ## Frames -/

namespace Frame.Refines

variable {f g : Frame}

theorem addRef (h : f.Refines exact g) (name : String) :
    (f.addRef name).Refines exact (g.addRef name) := by
  refine ⟨h.scope, fun other hother => ?_, h.blocks, fun he => ?_⟩
  · rcases NameSet.mem_insert.mp hother with hother | rfl
    · exact NameSet.mem_insert.mpr (.inl (h.refs other hother))
    · exact NameSet.mem_insert.mpr (.inr rfl)
  · obtain ⟨hrefs, hsame⟩ := h.same he
    exact ⟨congrArg (NameSet.insert · name) hrefs, hsame⟩

/-- The other walk may note more names. -/
theorem foldl_addRef (h : f.Refines exact g) {names names' : List String}
    (hnames : ∀ name ∈ names, name ∈ names') (he : exact → names = names') :
    (names.foldl Frame.addRef f).Refines exact (names'.foldl Frame.addRef g) := by
  have hplace := Frame.place_foldl_addRef names f
  have hplace' := Frame.place_foldl_addRef names' g
  have hscope : (names.foldl Frame.addRef f).scope = f.scope := congrArg Prod.fst hplace
  have hscope' : (names'.foldl Frame.addRef g).scope = g.scope := congrArg Prod.fst hplace'
  refine ⟨hscope.trans (h.scope.trans hscope'.symm), fun name hname => ?_,
    (congrArg Prod.snd hplace').trans h.blocks, fun hexact => ?_⟩
  · exact (refs_foldl_addRef names' g).mpr
      (((refs_foldl_addRef names f).mp hname).imp (h.refs name) (hnames name))
  · cases he hexact
    have hfold : (names.foldl Frame.addRef f).Refines exact (names.foldl Frame.addRef g) := by
      clear hplace hplace' hscope hscope' hnames
      induction names generalizing f g with
      | nil => exact h
      | cons name names ih => exact ih (h.addRef name) fun _ => rfl
    exact hfold.same hexact

theorem openBlock (h : f.Refines exact g) (hn : exact → blockNames n = []) :
    Refines exact { f with blocks := Pass.ownBlocks true n ++ f.blocks } g := by
  refine ⟨h.scope, h.refs, h.blocks, fun he => ?_⟩
  obtain ⟨hrefs, hcaptured, hempty⟩ := h.same he
  refine ⟨hrefs, hcaptured, fun b hb => ?_⟩
  rcases List.mem_append.mp hb with hb | hb
  · unfold Pass.ownBlocks at hb
    split at hb
    · rw [List.mem_singleton.mp hb, hn he]
      rfl
    · cases hb
  · exact hempty b hb

theorem closeBlock (h : f.Refines exact g) (count : Nat) :
    Refines exact { f with blocks := f.blocks.drop count } g :=
  ⟨h.scope, h.refs, h.blocks, fun he =>
    have ⟨hrefs, hcaptured, hempty⟩ := h.same he
    ⟨hrefs, hcaptured, fun b hb => hempty b (List.mem_of_mem_drop hb)⟩⟩

theorem fresh (i : ScopeId) (hn : exact → blockNames n = []) :
    Refines exact ⟨i, Pass.ownBlocks true n, ∅, ∅⟩ ⟨i, [], ∅, ∅⟩ := by
  have hempty : Refines exact ⟨i, [], ∅, ∅⟩ ⟨i, [], ∅, ∅⟩ :=
    ⟨rfl, fun _ => id, rfl, fun _ => ⟨rfl, rfl, nofun⟩⟩
  simpa using hempty.openBlock hn

end Frame.Refines

theorem forall₂_onInnermost {R : Frame → Frame → Prop} {a b : Frame → Frame}
    (hR : ∀ {f g}, R f g → R (a f) (b g)) {fs gs : List Frame} (h : List.Forall₂ R fs gs) :
    List.Forall₂ R (onInnermost a fs) (onInnermost b gs) := by
  cases h with
  | nil => exact .nil
  | cons hf hrest => exact .cons (hR hf) hrest

/-- Empty blocks own nothing. -/
theorem blockOwner?_eq_none {table : ScopeTable} {name : String} {fs : List Frame}
    (h : ∀ f ∈ fs, ∀ b ∈ f.blocks, b = ∅) : Pass.blockOwner? table name fs = none := by
  induction fs with
  | nil => rfl
  | cons f rest ih =>
    obtain ⟨hf, hrest⟩ := List.forall_mem_cons.mp h
    have hblocks : f.blockBinds name = false := by
      refine List.any_eq_false.mpr fun b hb => ?_
      rw [hf b hb]
      exact Bool.false_ne_true
    unfold Pass.blockOwner?
    rw [if_neg (by simp [hblocks]), ih hrest]
    split <;> rfl

theorem onInnermost_id (fs : List Frame) : onInnermost (fun f => f) fs = fs := by
  cases fs <;> rfl

/-! ## Passes -/

namespace Pass.Refines

variable {p q : Pass} (h : p.Refines exact q)
include h

/-- Only the tracking walk can find a block that owns the name. -/
theorem reference (name : String) : (p.reference name).Refines exact (q.reference name) := by
  have hoff : blockOwner? q.table name q.frames = none := by
    have hblocks : ∀ g ∈ q.frames, g.blocks = [] := by
      have hflip := List.Forall₂.flip (R := fun g f => Frame.Refines exact f g) h.frames
      exact ((List.forall₂_and_left _ _).mp (hflip.imp fun g f hf => ⟨hf.blocks, hf⟩)).1
    exact blockOwner?_eq_none fun g hg b hb => by
      rw [hblocks g hg] at hb
      cases hb
  unfold Pass.reference
  rw [hoff]
  cases hon : blockOwner? p.table name p.frames with
  | none => exact ⟨forall₂_onInnermost (fun hf => hf.addRef name) h.frames, h.table⟩
  | some inner =>
    have hne : ¬ exact := fun he => by
      have hempty : ∀ f ∈ p.frames, ∀ b ∈ f.blocks, b = ∅ :=
        ((List.forall₂_and_left _ _).mp (h.frames.imp fun f g hf => ⟨(hf.same he).2.2, hf⟩)).1
      rw [blockOwner?_eq_none hempty] at hon
      cases hon
    have hcapture : List.Forall₂ (Frame.Refines exact)
        ((p.frames.take inner).map (·.capture name) ++ p.frames.drop inner) q.frames := by
      rw [← List.take_append_drop inner q.frames]
      refine List.rel_append (List.forall₂_map_left_iff.mpr ?_)
        (List.forall₂_drop inner h.frames)
      exact (List.forall₂_take inner h.frames).imp fun f g hf =>
        ⟨hf.scope, hf.refs, hf.blocks, fun he => absurd he hne⟩
    have hframes := forall₂_onInnermost (a := fun f => f) (b := (·.addRef name))
      (fun hf => ⟨hf.scope,
        fun other hother => NameSet.mem_insert.mpr (.inl (hf.refs other hother)), hf.blocks,
        fun he => absurd he hne⟩) hcapture
    rw [onInnermost_id] at hframes
    exact ⟨hframes, h.table⟩

theorem setSrcName (id : NodeId) (label : String) :
    (p.setSrcName id label).Refines exact (q.setSrcName id label) :=
  ⟨h.frames, h.table.modifyInfo id _⟩

theorem modifyInnermost {f g : FunctionScope → FunctionScope}
    (hf : ∀ {s s'}, s.Refines exact s' → (f s).Refines exact (g s')) :
    (p.modifyInnermost f).Refines exact (q.modifyInnermost g) := by
  have hframes := h.frames
  unfold Pass.modifyInnermost
  cases hp : p.frames with
  | nil =>
    rw [hp, List.forall₂_nil_left_iff] at hframes
    rw [hframes]
    exact h.table
  | cons fr rest =>
    rw [hp] at hframes
    obtain ⟨gr, rest', hfr, -, hq⟩ := List.forall₂_cons_left_iff.mp hframes
    rw [hq]
    exact h.table.modifyScope hf hfr.scope

theorem enter (n : Node) : (p.enter n).Refines exact (q.enter n) := by
  unfold Pass.enter
  split
  · split
    · exact h
    · split
      · exact h.reference _
      · exact h
  · exact h.setSrcName n.id "this"
  · split
    · exact ⟨h.frames, h.table.modifyInfo _ _⟩
    · exact h
  · split
    · next name hname =>
      have hlabel := h.setSrcName n.id (functionLabel name)
      have hframes := h.frames
      obtain ⟨frames, table⟩ := p
      obtain ⟨frames', table'⟩ := q
      cases hframes with
      | nil => exact hlabel
      | cons hf hrest =>
        exact ⟨.cons hf hrest,
          hlabel.table.modifyScope (fun hs => hs.addFunction name n.id) hf.scope⟩
    · exact h
  · exact h

theorem declare (parent : Option Node)
    (hn : exact → ∀ decl ∈ declarations parent n, decl.binding = .var) :
    (if declares n.kind then p.declare true parent n else p).Refines exact
      (if declares n.kind then q.declare false parent n else q) := by
  rw [declare_eq, declare_eq]
  exact ⟨h.frames, h.modifyInnermost fun hs => hs.foldl_recordIn _ hn⟩

theorem enterContext (hn : exact → ∀ decl ∈ hoisted n, decl.binding = .var) :
    (p.enterContext true n).Refines exact (q.enterContext false n) := by
  have hparent : p.frames.head?.map (·.scope) = q.frames.head?.map (·.scope) := by
    have hframes := h.frames
    revert hframes
    generalize p.frames = fs
    generalize q.frames = gs
    intro hframes
    cases hframes with
    | nil => rfl
    | cons hf _ => exact congrArg some hf.scope
  have hfresh : (freshScope (p.frames.head?.map (·.scope)) n).Refines exact
      (freshScope (q.frames.head?.map (·.scope)) n) := by
    rw [hparent]
    exact ⟨rfl, rfl, rfl, rfl, rfl, rfl, fun _ => id, fun _ => rfl⟩
  have hpushed := h.table.pushScope (hfresh.foldl_recordIn _ hn)
  constructor
  · have hscope : p.table.scopes.size = q.table.scopes.size := h.table.size
    exact .cons ⟨hscope, fun _ => id, rfl, fun _ => ⟨rfl, rfl, nofun⟩⟩ h.frames
  · rw [table_enterContext, table_enterContext]
    dsimp only
    split
    · exact hpushed.modifyInfo n.id _
    · exact hpushed

theorem openBlock (hn : exact → blockNames n = []) :
    (p.openBlock true n).Refines exact (q.openBlock false n) := by
  have hoff : q.openBlock false n = { q with frames := onInnermost (fun g => g) q.frames } := by
    rw [onInnermost_id]
    rfl
  rw [openBlock_eq, hoff]
  exact ⟨forall₂_onInnermost (fun hf => hf.openBlock hn) h.frames, h.table⟩

theorem closeBlock (n : Node) : (p.closeBlock true n).Refines exact (q.closeBlock false n) := by
  have hoff : q.closeBlock false n = { q with frames := onInnermost (fun g => g) q.frames } := by
    rw [onInnermost_id]
    rfl
  rw [closeBlock_eq, hoff]
  exact ⟨forall₂_onInnermost (fun hf => hf.closeBlock _) h.frames, h.table⟩

theorem «begin» (parent : Option Node) (hblock : exact → blockNames n = [])
    (hn : exact → ∀ decl ∈ declarations parent n ++ hoisted n, decl.binding = .var) :
    (p.begin true parent n).Refines exact (q.begin false parent n) := by
  have hdeclared := (h.enter n).declare parent fun he decl hd =>
    hn he decl (List.mem_append_left _ hd)
  unfold Pass.begin
  refine Refines.openBlock ?_ hblock
  split
  · exact hdeclared.enterContext fun he decl hd => hn he decl (List.mem_append_right _ hd)
  · exact hdeclared

/-- What waited in a frame is looked up in tables that lead the same way. -/
theorem exitContext : p.exitContext.Refines exact q.exitContext := by
  have hframes := h.frames
  cases hp : p.frames with
  | nil =>
    rw [hp, List.forall₂_nil_left_iff] at hframes
    unfold Pass.exitContext
    rw [hp, hframes]
    exact h
  | cons f rest =>
    rw [hp] at hframes
    obtain ⟨g, rest', hf, hrest, hq⟩ := List.forall₂_cons_left_iff.mp hframes
    have hresolve : ∀ name, p.table.resolve f.scope name = q.table.resolve g.scope name :=
      fun name => hf.scope ▸ h.table.resolve_eq f.scope name
    have hnames : ∀ name ∈ handedOver p.table f.scope f.refs.names,
        name ∈ handedOver q.table g.scope g.refs.names := fun name hname => by
      rw [Walking.mem_handedOver, hresolve] at hname
      exact Walking.mem_handedOver.mpr ⟨hf.refs name hname.1, hname.2⟩
    have hsame : exact → handedOver p.table f.scope f.refs.names =
        handedOver q.table g.scope g.refs.names := fun he => by
      unfold handedOver
      rw [(hf.same he).1]
      simp only [hresolve]
    rw [exitContext_eq hp, exitContext_eq hq]
    refine ⟨forall₂_onInnermost (fun hf' => hf'.foldl_addRef hnames hsame) hrest,
      h.table.modifyScope (fun {s s'} hs => ?_) hf.scope⟩
    refine ⟨hs.node, hs.parent, hs.bindsArguments, hs.vars, hs.funcs, hs.untracked,
      fun name hname => ?_, fun he => ?_⟩
    · obtain ⟨hname, hfree⟩ := (Walking.mem_classify _ _).2.mp hname
      exact (Walking.mem_classify _ _).2.mpr ⟨hf.refs name hname, hresolve name ▸ hfree⟩
    · obtain ⟨hrefs, hcaptured, -⟩ := hf.same he
      have hclassify : classify p.table f.scope f.refs.names f.captured =
          classify q.table g.scope g.refs.names g.captured := by
        unfold classify
        rw [hrefs, hcaptured]
        simp only [hresolve]
      rw [hclassify, hs.same he]

theorem exit (n : Node) : (p.exit n).Refines exact (q.exit n) := by
  unfold Pass.exit
  rw [exitLabel?_congr h.table.info]
  split
  · exact h.setSrcName n.id _
  · exact h

theorem finish (n : Node) : (p.finish true n).Refines exact (q.finish false n) := by
  unfold Pass.finish
  refine Refines.exit ?_ n
  split
  · exact (h.closeBlock n).exitContext
  · exact h.closeBlock n

end Pass.Refines

/-! ## Whole walks -/

/-- The two walks of a node, side by side. -/
theorem refines_visit (hn : (n, around) ∈ t.sites) {p q : Pass} (h : p.Refines (VarsOnly t) q) :
    (Pass.visit true around.head? n p).Refines (VarsOnly t)
      (Pass.visit false around.head? n q) := by
  induction n using Node.induct generalizing around p q with
  | step n ih =>
    have hbegin := h.begin around.head? (fun ht => ht.blockNames_eq hn) fun ht decl hd =>
      (List.mem_append.mp hd).elim (ht.binding_eq hn) (ht.binding_eq_of_hoisted hn)
    have hbelow : ∀ cs : List Node, (∀ c ∈ cs, c ∈ n.children) → ∀ {p q : Pass}, p.Refines (VarsOnly t) q →
        (cs.foldl (fun p c => Pass.visit true (some n) c p) p).Refines (VarsOnly t)
          (cs.foldl (fun q c => Pass.visit false (some n) c q) q) := by
      intro cs
      induction cs with
      | nil => exact fun _ _ _ h => h
      | cons c cs ihs =>
        intro hcs p q h
        obtain ⟨hc, hcs⟩ := List.forall_mem_cons.mp hcs
        have hsite : (c, n :: around) ∈ t.sites := Tree.mem_sites_cons.mpr ⟨hn, hc⟩
        exact ihs hcs (ih c hc hsite h)
    rw [Pass.visit_eq, Pass.visit_eq]
    exact (hbelow n.children (fun _ hc => hc) hbegin).finish n

theorem refines_annotate (t : Tree) :
    (annotate true t).Refines (VarsOnly t) (annotate false t) :=
  (refines_visit (Node.self_mem_sites t.root [])
    ⟨.nil, rfl, rfl, fun hs => by simp [ScopeTable.blank] at hs⟩).table

/-- To track block-scoped names adds them and nothing else. The nodes are annotated alike, and the
    scopes have the same nodes, parents, variables and functions. Without tracking nothing is
    block-scoped, and every name that is free with tracking is free without. The tables are the same
    where blocks bind nothing. -/
theorem tracking_adds_lexicals (t : Tree) :
    let tracked := annotate true t
    let untracked := annotate false t
    tracked.info = untracked.info ∧ tracked.scopes.size = untracked.scopes.size ∧
      (∀ (i : ScopeId) (s s' : FunctionScope), tracked.scopes[i]? = some s →
        untracked.scopes[i]? = some s' →
          s.node = s'.node ∧ s.parent = s'.parent ∧ s.bindsArguments = s'.bindsArguments ∧
            s.vars = s'.vars ∧ s.funcs = s'.funcs ∧ s'.lexicals = ∅ ∧
            ∀ name ∈ s.freevars, name ∈ s'.freevars) ∧
      (VarsOnly t → tracked = untracked) := by
  have h := refines_annotate t
  refine ⟨h.info, h.size, fun i s s' hs hs' => ?_, h.eq⟩
  have hss := h.scopes hs hs'
  exact ⟨hss.node, hss.parent, hss.bindsArguments, hss.vars, hss.funcs, hss.untracked,
    hss.freevars⟩

-- A name that a block around binds is not free, but it is to a walk that does not see the block.
example :
    ((annotate true closureTree).functionScope? 8).map (·.freevars.names) = some ["missing"] ∧
      ((annotate false closureTree).functionScope? 8).map (·.freevars.names) =
        some ["kept", "missing"] := by
  decide +kernel

/-- `function outer(seen) { var kept; (function () { seen; kept; missing; }); }` -/
def plainDocument : Document :=
  syntaxDocument "Program" [("body", .array [
    functionDocument (some "outer") ["seen"] [
      declarationDocument "var" "kept",
      statementDocument (functionDocument none [] [
        statementDocument (identifierDocument "seen"),
        statementDocument (identifierDocument "kept"),
        statementDocument (identifierDocument "missing")])]])]

def plainTree : Tree := treeOf plainDocument

/-- Two nested functions without a block-scoped name. -/
theorem tracking_adds_lexicals_plain :
    Tree.ofDocument plainDocument = .ok plainTree ∧ VarsOnly plainTree ∧
      annotate true plainTree = annotate false plainTree := by
  have hclasses : ∀ s ∈ plainTree.sites, s.1.kind = .classDeclaration → nameOf? s.1 = none := by
    decide
  have hparameters : ∀ s ∈ plainTree.sites, s.1.kind = .catchClause →
      fieldNames s.1 "param" = [] := by decide
  have hdeclarators : ∀ s ∈ plainTree.sites, s.1.kind = .variableDeclarator →
      declaratorBinding s.2.head? = .lexical → fieldNames s.1 "id" = [] := by decide
  have hvars : VarsOnly plainTree :=
    ⟨fun hm => hclasses _ hm, fun hm => hparameters _ hm, fun hm => hdeclarators _ hm⟩
  obtain ⟨-, -, -, hsame⟩ := tracking_adds_lexicals plainTree
  exact ⟨rfl, hvars, hsame hvars⟩

end ScriptSandbox.Scope
