import ScriptSandbox.Proofs.Scope.Block

/-
  How names move between contexts.

  Two sets of names belong to an open context: the names referenced in it and the names captured
  through it. A reference is captured by every context that it escapes on the way to the block that
  owns it, and is noted in the nearest context otherwise (`refers_begin`, `captures_begin`). On the
  way out of a context its names are sorted by what the bindings throughout the contexts around it
  say (`resolve_own_iff`, `resolve_free_iff`), and those that it does not bind itself move to the
  enclosing context (`refers_finish`).
-/

namespace ScriptSandbox.Scope

open Syntax

variable {d : Document} {t : Tree} {tracking : Bool} {k : Nat} {around above path : List Node}
  {p : Pass} {n c : Node} {name other : String} {id : NodeId}

/-! ## Escaping contexts -/

/-- The name of a reference escapes a context: neither this context nor one on the way to it answers
    for the name. The last argument lists the contexts beyond. -/
inductive Escapes (tracking : Bool) (table : ScopeTable) (name : String) :
    List Enclosure → NodeId → List Enclosure → Prop
  | leaves {e : Enclosure} {es : List Enclosure} (h : ¬ e.Owns tracking table name) :
    Escapes tracking table name (e :: es) e.context.id es
  | passes {e : Enclosure} {es beyond : List Enclosure} {id : NodeId}
    (h : ¬ e.Owns tracking table name) (h' : Escapes tracking table name es id beyond) :
    Escapes tracking table name (e :: es) id beyond

namespace Escapes

variable {table : ScopeTable} {e : Enclosure} {es beyond : List Enclosure}

theorem cons_iff : Escapes tracking table name (e :: es) id beyond ↔
    ¬ e.Owns tracking table name ∧
      (e.context.id = id ∧ es = beyond ∨ Escapes tracking table name es id beyond) := by
  constructor
  · rintro (h | ⟨h, h'⟩)
    · exact ⟨h, .inl ⟨rfl, rfl⟩⟩
    · exact ⟨h, .inr h'⟩
  · rintro ⟨h, ⟨rfl, rfl⟩ | h'⟩
    · exact .leaves h
    · exact .passes h h'

/-- What escapes a context and is not owned by the next one escapes that as well. -/
theorem next (h : Escapes tracking table name es id (e :: beyond))
    (he : ¬ e.Owns tracking table name) : Escapes tracking table name es e.context.id beyond := by
  generalize hb : e :: beyond = bs at h
  induction h with
  | leaves h => exact .passes h (hb ▸ .leaves he)
  | passes h _ ih => exact .passes h (ih hb)

/-- The contexts beyond are those around the node of the context. -/
theorem site (h : Escapes tracking table name (enclosures path) id beyond) :
    ∃ between c above, path = between ++ c :: above ∧ c.id = id ∧ c.kind.isContext = true ∧
      beyond = enclosures above := by
  generalize hes : enclosures path = es at h
  induction h generalizing path with
  | leaves _ =>
    obtain ⟨between, above, rfl, rfl, hk, -⟩ := enclosures_eq_cons hes
    exact ⟨between, _, above, rfl, rfl, hk, rfl⟩
  | passes _ _ ih =>
    obtain ⟨outer, above, rfl, rfl, -, -⟩ := enclosures_eq_cons hes
    obtain ⟨between, c, above', rfl, hid, hk, hb⟩ := ih rfl
    exact ⟨_, c, above', (List.append_assoc outer (_ :: between) (c :: above')).symm, hid, hk, hb⟩

theorem blockOwned_iff (h : Escapes tracking table name es id beyond) :
    BlockOwned tracking table name es ↔ BlockOwned tracking table name beyond := by
  induction h with
  | leaves h =>
    obtain ⟨hblock, hbinds⟩ := not_or.mp h
    simp [BlockOwned, hblock, hbinds]
  | passes h _ ih =>
    obtain ⟨hblock, hbinds⟩ := not_or.mp h
    simp [BlockOwned, hblock, hbinds, ih]

end Escapes

/-! ## The names of an open context -/

namespace Pass

/-- The frame of the open context of a node has a property. -/
def Holds (p : Pass) (id : NodeId) (P : Frame → Prop) : Prop :=
  ∃ f ∈ p.frames, p.table.scopeId? id = some f.scope ∧ P f

/-- A name is noted as referenced in the open context of a node. -/
def Refers (p : Pass) (id : NodeId) (name : String) : Prop := p.Holds id (name ∈ ·.refs)

/-- A name is captured through the open context of a node. -/
def Captures (p : Pass) (id : NodeId) (name : String) : Prop := p.Holds id (name ∈ ·.captured)

end Pass

theorem exists_mem_onInnermost {g : Frame → Frame} {P : Frame → Prop}
    (hg : ∀ f, P (g f) ↔ P f) (fs : List Frame) :
    (∃ f ∈ onInnermost g fs, P f) ↔ ∃ f ∈ fs, P f := by
  cases fs with
  | nil => rfl
  | cons f rest => simp [onInnermost, hg]

theorem exists_mem_map_take {g : Frame → Frame} {P : Frame → Prop}
    (hg : ∀ f, P (g f) ↔ P f) (fs : List Frame) (i : Nat) :
    (∃ f ∈ (fs.take i).map g ++ fs.drop i, P f) ↔ ∃ f ∈ fs, P f := by
  have htake : (∃ f ∈ (fs.take i).map g, P f) ↔ ∃ f ∈ fs.take i, P f := by
    simp only [List.mem_map, exists_exists_and_eq_and, hg]
  conv_rhs => rw [← List.take_append_drop i fs]
  simp only [List.mem_append, or_and_right, exists_or, htake]

theorem refs_foldl_addRef (names : List String) (f : Frame) :
    name ∈ (names.foldl Frame.addRef f).refs ↔ name ∈ f.refs ∨ name ∈ names := by
  rw [foldl_iff (P := fun f : Frame => name ∈ f.refs) (Q := True), and_true]
  exact fun f other => by simp [Frame.addRef, or_comm]

theorem captured_foldl_addRef (names : List String) (f : Frame) :
    (names.foldl Frame.addRef f).captured = f.captured :=
  List.foldlRecOn (motive := (Frame.captured · = f.captured)) names _ rfl fun _ h _ _ => h

/-- Names that are noted in the innermost frame. -/
theorem exists_refs_onInnermost {i : Option ScopeId} (names : List String) (fs : List Frame) :
    (∃ f ∈ onInnermost (fun f => names.foldl Frame.addRef f) fs, i = some f.scope ∧
        name ∈ f.refs) ↔
      (∃ f ∈ fs, i = some f.scope ∧ name ∈ f.refs) ∨
        (∃ f ∈ fs.head?, i = some f.scope) ∧ name ∈ names := by
  cases fs with
  | nil => simp [onInnermost]
  | cons f rest =>
    have hscope : (names.foldl Frame.addRef f).scope = f.scope :=
      congrArg Prod.fst (Frame.place_foldl_addRef names f)
    rw [onInnermost, List.exists_mem_cons_iff, List.exists_mem_cons_iff, hscope,
      refs_foldl_addRef, and_or_left, or_right_comm]
    simp

/-- The search for a block that owns a name, and what the contexts on the way capture. -/
theorem blockOwner?_spec (name other : String) (id : NodeId) {table : ScopeTable}
    {fs : List Frame} {es : List Enclosure}
    (hinj : ∀ id id' i, table.scopeId? id = some i → table.scopeId? id' = some i → id = id')
    (h : List.Forall₂ (Mirrors table tracking) fs es) :
    (Pass.blockOwner? table name fs = none → ¬ BlockOwned tracking table name es) ∧
    ∀ inner, Pass.blockOwner? table name fs = some inner → BlockOwned tracking table name es ∧
      ((∃ f ∈ (fs.take inner).map (·.capture name) ++ fs.drop inner,
          table.scopeId? id = some f.scope ∧ other ∈ f.captured) ↔
        (∃ f ∈ fs, table.scopeId? id = some f.scope ∧ other ∈ f.captured) ∨
          other = name ∧ ∃ beyond, Escapes tracking table name es id beyond ∧
            BlockOwned tracking table name beyond) := by
  induction h with
  | nil => exact ⟨fun _ => not_false, nofun⟩
  | @cons f e rest es hf hrest ih =>
    have hbinds := hf.binds_iff name
    simp only [Pass.blockOwner?]
    split
    · next hblock =>
      have hblock := hf.blockBinds_iff.mp hblock
      refine ⟨nofun, fun inner hinner => ?_⟩
      cases hinner
      simp [BlockOwned, hblock, Escapes.cons_iff, Enclosure.Owns]
    · next hblock =>
      rw [hf.blockBinds_iff] at hblock
      split
      · next hb => exact ⟨fun _ => by simp [BlockOwned, hblock, hbinds.mp hb], nofun⟩
      · next hb =>
        rw [hbinds] at hb
        have hid : table.scopeId? id = some f.scope ↔ e.context.id = id :=
          ⟨fun hid => hinj _ _ _ hf.scope hid, fun hid => hid ▸ hf.scope⟩
        cases howner : Pass.blockOwner? table name rest with
        | none =>
          refine ⟨fun _ => ?_, nofun⟩
          simp [BlockOwned, hblock, ih.1 howner]
        | some inner =>
          refine ⟨nofun, fun i hi => ?_⟩
          cases hi
          obtain ⟨howned, hcaptured⟩ := ih.2 inner howner
          refine ⟨by simp [BlockOwned, hb, howned], ?_⟩
          have howns : ¬ e.Owns tracking table name := not_or.mpr ⟨hblock, hb⟩
          have hcons : (∃ beyond, Escapes tracking table name (e :: es) id beyond ∧
              BlockOwned tracking table name beyond) ↔ e.context.id = id ∨
                ∃ beyond, Escapes tracking table name es id beyond ∧
                  BlockOwned tracking table name beyond := by
            simp only [Escapes.cons_iff, howns, not_false_eq_true, true_and, or_and_right,
              exists_or, and_assoc]
            simp [howned]
          rw [hcons]
          have hhead : table.scopeId? id = some (f.capture name).scope ∧
              other ∈ (f.capture name).captured ↔
              e.context.id = id ∧ (other ∈ f.captured ∨ other = name) := by
            rw [← hid, ← NameSet.mem_insert]
            rfl
          rw [List.take_succ_cons, List.map_cons, List.cons_append, List.drop_succ_cons,
            List.exists_mem_cons_iff, List.exists_mem_cons_iff, hcaptured, hhead, hid]
          constructor
          · rintro (⟨hid, hold | hnew⟩ | hold | ⟨hnew, hdeeper⟩)
            · exact .inl (.inl ⟨hid, hold⟩)
            · exact .inr ⟨hnew, .inl hid⟩
            · exact .inl (.inr hold)
            · exact .inr ⟨hnew, .inr hdeeper⟩
          · rintro ((⟨hid, hold⟩ | hold) | ⟨hnew, hid | hdeeper⟩)
            · exact .inl ⟨hid, .inl hold⟩
            · exact .inr (.inl hold)
            · exact .inl ⟨hid, .inr hnew⟩
            · exact .inr (.inr ⟨hnew, hdeeper⟩)

/-! ## Where a name leads -/

/-- The contexts on a path. -/
def contextsOf (path : List Node) : List Node := path.filter fun c => c.kind.isContext

theorem contextsOf_cons (hk : c.kind.isContext = true) (above : List Node) :
    contextsOf (c :: above) = c :: contextsOf above :=
  List.filter_cons_of_pos hk

theorem contextsOf_eq_nil (h : nearestContext? path = none) : contextsOf path = [] :=
  List.filter_eq_nil_iff.mpr (List.find?_eq_none.mp h)

/-- Before the nearest context there is none. -/
theorem exists_contextsOf_eq_cons (h : nearestContext? path = some c) :
    c.kind.isContext = true ∧ ∃ between above, path = between ++ c :: above ∧
      contextsOf path = c :: contextsOf above := by
  obtain ⟨hk, between, above, rfl, hbetween⟩ := List.find?_eq_some_iff_append.mp h
  have hnone : contextsOf between = [] :=
    List.filter_eq_nil_iff.mpr fun x hx => by simpa using hbetween x hx
  refine ⟨hk, between, above, rfl, ?_⟩
  rw [contextsOf, List.filter_append]
  exact (congrArg (· ++ _) hnone).trans (contextsOf_cons hk above)

/-- The scope of a context and what it has for a name throughout. -/
def ScopeTable.binderAt? (table : ScopeTable) (name : String) (c : Node) :
    Option (ScopeId × NodeId) :=
  (table.scopeId? c.id).bind fun i =>
    table.scopes[i]?.bind fun s => (s.declaration? name).map (i, ·)

theorem binderAt?_eq {table : ScopeTable} {i : ScopeId} {s : FunctionScope}
    (hi : table.scopeId? c.id = some i) (hs : table.scopes[i]? = some s) :
    table.binderAt? name c = (s.declaration? name).map (i, ·) := by
  simp [ScopeTable.binderAt?, hi, hs]

theorem scopeId?_of_binderAt? {table : ScopeTable} {found : ScopeId × NodeId}
    (h : table.binderAt? name c = some found) : table.scopeId? c.id = some found.1 := by
  obtain ⟨i, hi, h⟩ := Option.bind_eq_some_iff.mp h
  obtain ⟨s, -, h⟩ := Option.bind_eq_some_iff.mp h
  obtain ⟨node, -, rfl⟩ := Option.map_eq_some_iff.mp h
  exact hi

theorem isSome_binderAt?_iff {table : ScopeTable} :
    (table.binderAt? name c).isSome = true ↔ table.BindsAt c.id name := by
  unfold ScopeTable.binderAt? ScopeTable.BindsAt ScopeTable.Has ScopeTable.functionScope?
  cases table.scopeId? c.id with
  | none => simp
  | some i => cases hs : table.scopes[i]? <;> simp [hs, FunctionScope.binds]

namespace Walking

/-- The chain of the scopes from a context outward visits the contexts around it. -/
theorem binderWithin_eq (name : String) (ht : Tree.ofDocument d = .ok t)
    (h : Walking t tracking k path p)
    (hc : (c, above) ∈ t.sites) (hk : c.kind.isContext = true) (hlt : c.id < k) {i : ScopeId}
    (hi : p.table.scopeId? c.id = some i) (steps : Nat) (hsteps : i < steps) :
    p.table.binderWithin name steps (some i) =
      (contextsOf (c :: above)).findSome? (p.table.binderAt? name) := by
  induction steps generalizing c above i with
  | zero => exact absurd hsteps (Nat.not_lt_zero i)
  | succ steps ih =>
    obtain ⟨s, hs, hparent⟩ := h.owned c above hc hk hlt
    obtain ⟨i', hi', hscope⟩ := ScopeTable.functionScope?_eq_some.mp hs
    cases hi.symm.trans hi'
    rw [contextsOf_cons hk, List.findSome?_cons, binderAt?_eq hi hscope]
    simp only [ScopeTable.binderWithin, hscope]
    cases hdecl : s.declaration? name with
    | some node => rfl
    | none =>
      rw [Option.map_none]
      dsimp only
      cases hnear : nearestContext? above with
      | none =>
        rw [hnear, Option.bind_none] at hparent
        rw [hparent, contextsOf_eq_nil hnear]
        cases steps <;> rfl
      | some c' =>
        obtain ⟨hk', between, above', rfl, hrest⟩ := exists_contextsOf_eq_cons hnear
        obtain ⟨hc', -⟩ := Tree.mem_sites_of_append hc
        have hlt' : c'.id < k :=
          Nat.lt_trans (Tree.id_lt_of_mem_around ht hc c' (by simp)) hlt
        obtain ⟨s', hs', -⟩ := h.owned c' above' hc' hk' hlt'
        obtain ⟨j, hj, -⟩ := ScopeTable.functionScope?_eq_some.mp hs'
        rw [hnear, Option.bind_some, hj] at hparent
        have hij : j < i := by
          obtain ⟨-, s₁, hs₁, -, hlow⟩ := h.linked _ _ hi
          cases hscope.symm.trans hs₁
          exact hlow j hparent
        rw [hparent, hrest, ← contextsOf_cons hk']
        exact ih hc' hk' hlt' hj (Nat.lt_of_lt_of_le hij (Nat.le_of_lt_succ hsteps))

section Resolve

variable (ht : Tree.ofDocument d = .ok t) (h : Walking t tracking k path p)
  (hc : (c, above) ∈ t.sites) (hk : c.kind.isContext = true) (hlt : c.id < k) {i : ScopeId}
  (hi : p.table.scopeId? c.id = some i)

include ht h hc hk hlt hi

/-- A name leads to the first context that has it throughout, on the way outward. -/
theorem resolve_outward (name : String) :
    p.table.resolve i name =
      match p.table.binderAt? name c with
      | some (_, node) => .own node
      | none =>
        match (contextsOf above).findSome? (p.table.binderAt? name) with
        | some (binder, node) => .outer binder node
        | none => .free := by
  rw [ScopeTable.resolve, h.binderWithin_eq name ht hc hk hlt hi _ (h.scopeId_lt hi),
    contextsOf_cons hk, List.findSome?_cons]
  cases hb : p.table.binderAt? name c with
  | some found => exact if_pos (Option.some.inj ((scopeId?_of_binderAt? hb).symm.trans hi))
  | none =>
    dsimp only
    cases hfind : (contextsOf above).findSome? (p.table.binderAt? name) with
    | none => rfl
    | some found =>
      -- a context around the node has another scope
      obtain ⟨c', hmem, hb'⟩ := List.exists_of_findSome?_eq_some hfind
      refine if_neg fun he => ?_
      have hid : c'.id = c.id := h.scopeId?_inj (he ▸ scopeId?_of_binderAt? hb') hi
      exact Nat.ne_of_lt (Tree.id_lt_of_mem_around ht hc c' (List.mem_filter.mp hmem).1) hid

theorem resolve_own_iff (name : String) :
    (∃ node, p.table.resolve i name = .own node) ↔ p.table.BindsAt c.id name := by
  rw [← isSome_binderAt?_iff, h.resolve_outward ht hc hk hlt hi]
  cases p.table.binderAt? name c with
  | some found => simp
  | none => cases (contextsOf above).findSome? (p.table.binderAt? name) <;> simp

theorem resolve_free_iff (name : String) :
    p.table.resolve i name = .free ↔
      ∀ c' ∈ c :: above, c'.kind.isContext = true → ¬ p.table.BindsAt c'.id name := by
  have hnone : (contextsOf above).findSome? (p.table.binderAt? name) = none ↔
      ∀ c' ∈ above, c'.kind.isContext = true → ¬ p.table.BindsAt c'.id name := by
    simp [contextsOf, ← isSome_binderAt?_iff]
  rw [List.forall_mem_cons, ← hnone, ← isSome_binderAt?_iff, h.resolve_outward ht hc hk hlt hi]
  cases p.table.binderAt? name c with
  | some found => simp [hk]
  | none => cases (contextsOf above).findSome? (p.table.binderAt? name) <;> simp

theorem resolve_outer_iff (name : String) :
    (∃ b node, p.table.resolve i name = .outer b node) ↔ ¬ p.table.BindsAt c.id name ∧
      ∃ c' ∈ above, c'.kind.isContext = true ∧ p.table.BindsAt c'.id name := by
  rw [← h.resolve_own_iff ht hc hk hlt hi]
  have hfree := h.resolve_free_iff ht hc hk hlt hi name
  have hown := h.resolve_own_iff ht hc hk hlt hi name
  cases hr : p.table.resolve i name with
  | own node => simp
  | outer b node =>
    simp only [hr, reduceCtorEq, exists_false, false_iff] at hown hfree
    simpa [hown, hk] using hfree
  | free =>
    simp only [hr, true_iff] at hfree
    simpa using fun x hx hk' => hfree x (List.mem_cons_of_mem _ hx) hk'

end Resolve

/-! ## The way into a node -/

theorem lt_of_holds (h : Walking t tracking k path p) {P : Frame → Prop} (hP : p.Holds id P) :
    id < k := by
  obtain ⟨f, -, hf, -⟩ := hP
  exact (h.linked id f.scope hf).1

/-- The innermost of the frames that stand for the contexts around a site is that of the nearest
    context. -/
theorem innermost_iff (h : Walking t tracking k path p) {fs : List Frame}
    (hfs : List.Forall₂ (Mirrors p.table tracking) fs (enclosures above)) :
    (∃ f ∈ fs.head?, p.table.scopeId? id = some f.scope) ↔
      (nearestContext? above).map (·.id) = some id := by
  rw [← head?_enclosures]
  cases he : enclosures above with
  | nil =>
    rw [he, List.forall₂_nil_right_iff] at hfs
    simp [hfs]
  | cons e es =>
    rw [he] at hfs
    obtain ⟨f, rest, hf, -, rfl⟩ := List.forall₂_cons_right_iff.mp hfs
    simp only [List.head?_cons, Option.mem_some_iff, exists_eq_left', Option.map_some,
      Option.some.injEq]
    exact ⟨fun hid => h.scopeId?_inj hf.scope hid, fun hid => hid ▸ hf.scope⟩

theorem exists_mirror {table : ScopeTable} {fs : List Frame} {es : List Enclosure}
    (h : List.Forall₂ (Mirrors table tracking) fs es) {f : Frame} (hf : f ∈ fs) :
    ∃ e ∈ es, Mirrors table tracking f e := by
  induction h with
  | nil => cases hf
  | cons hm _ ih =>
    rcases List.mem_cons.mp hf with rfl | hf
    · exact ⟨_, List.mem_cons_self, hm⟩
    · obtain ⟨e, he, hm⟩ := ih hf
      exact ⟨e, List.mem_cons_of_mem _ he, hm⟩

/-- On the way into a node that refers to nothing the names of open contexts stay. -/
theorem holds_begin (h : Walking t tracking n.id around p) (hsize : n.id < t.size)
    (href : n.reference? = none) {P : Frame → Prop}
    (hP : ∀ f blocks, P { f with blocks := blocks } ↔ P f) (hnew : ∀ i bs, ¬ P ⟨i, bs, ∅, ∅⟩)
    (parent : Option Node) : (p.begin tracking parent n).Holds id P ↔ p.Holds id P := by
  unfold Pass.Holds
  cases hcontext : n.kind.isContext with
  | false =>
    obtain ⟨hframes, htable⟩ :=
      Pass.begin_inner p tracking parent href hcontext
    rw [hframes, htable.scopeId?, scopeId?_modifyInnermost]
    exact exists_mem_onInnermost (fun f => and_congr_right fun _ => hP f _) p.frames
  | true =>
    obtain ⟨hframes, -⟩ :=
      Pass.begin_context p tracking parent hcontext
    rw [hframes, scopeId?_begin_context hcontext h hsize, List.exists_mem_cons_iff]
    simp only [hnew, and_false, false_or]
    split
    · next he =>
      subst he
      constructor
      · rintro ⟨f, hf, hscope, -⟩
        obtain ⟨e, -, hm⟩ := exists_mirror h.frames hf
        have hlt := h.scopeId_lt hm.scope
        exact absurd (Option.some.inj hscope) (Nat.ne_of_gt hlt)
      · rintro ⟨f, -, hscope, -⟩
        exact absurd (h.linked _ _ hscope).1 (Nat.lt_irrefl _)
    · rfl

/-- A reference is noted in the nearest context, unless a block owns the name. -/
theorem refers_reference (h : Walking t tracking k path p) :
    (p.reference other).Refers id name ↔ p.Refers id name ∨
      name = other ∧ (nearestContext? path).map (·.id) = some id ∧
        ¬ BlockOwned tracking p.table other (enclosures path) := by
  obtain ⟨hnone, hsome⟩ := blockOwner?_spec other other id
    (fun _ _ _ => h.scopeId?_inj) h.frames
  unfold Pass.Refers Pass.Holds
  rw [Pass.table_reference]
  unfold Pass.reference
  split
  · next inner howner =>
    have howned := (hsome inner howner).1
    rw [exists_mem_map_take (g := (·.capture other)) (fun _ => Iff.rfl) p.frames inner]
    simp [howned]
  · next howner =>
    have howned := hnone howner
    refine (exists_refs_onInnermost [other] p.frames).trans (or_congr_right ?_)
    rw [h.innermost_iff h.frames, List.mem_singleton]
    simp [howned, and_comm]

/-- A name that a block owns is captured by every context that it escapes on the way there. -/
theorem captures_reference (h : Walking t tracking k path p) :
    (p.reference other).Captures id name ↔ p.Captures id name ∨
      name = other ∧ ∃ beyond, Escapes tracking p.table other (enclosures path) id beyond ∧
        BlockOwned tracking p.table other beyond := by
  obtain ⟨hnone, hsome⟩ := blockOwner?_spec other name id
    (fun _ _ _ => h.scopeId?_inj) h.frames
  unfold Pass.Captures Pass.Holds
  rw [Pass.table_reference]
  unfold Pass.reference
  split
  · next inner howner => exact (hsome inner howner).2
  · next howner =>
    have hkept := exists_mem_onInnermost (g := (·.addRef other))
      (P := fun f => p.table.scopeId? id = some f.scope ∧ name ∈ f.captured)
      (fun _ => Iff.rfl) p.frames
    refine hkept.trans (or_iff_left ?_).symm
    rintro ⟨-, beyond, hescapes, howned⟩
    exact hnone howner (hescapes.blockOwned_iff.mpr howned)

section Begin

variable (ht : Tree.ofDocument d = .ok t) (hn : (n, around) ∈ t.sites)
  (h : Walking t tracking n.id around p) (parent : Option Node)

include ht hn h

theorem refers_begin : (p.begin tracking parent n).Refers id name ↔ p.Refers id name ∨
    n.reference? = some name ∧ (nearestContext? around).map (·.id) = some id ∧
      ¬ BlockOwned tracking p.table name (enclosures around) := by
  cases href : n.reference? with
  | none =>
    rw [or_iff_left (fun hr => nomatch hr.1)]
    exact h.holds_begin (P := (name ∈ ·.refs)) (Tree.id_lt_size ht hn) href
      (fun _ _ => Iff.rfl) (fun _ _ => List.not_mem_nil) parent
  | some other =>
    rw [Pass.begin_reference href, h.refers_reference, Option.some.injEq, eq_comm (a := name)]
    exact or_congr_right (and_congr_right fun he => by rw [he])

theorem captures_begin : (p.begin tracking parent n).Captures id name ↔ p.Captures id name ∨
    n.reference? = some name ∧
      ∃ beyond, Escapes tracking p.table name (enclosures around) id beyond ∧
        BlockOwned tracking p.table name beyond := by
  cases href : n.reference? with
  | none =>
    rw [or_iff_left (fun hr => nomatch hr.1)]
    exact h.holds_begin (P := (name ∈ ·.captured)) (Tree.id_lt_size ht hn) href
      (fun _ _ => Iff.rfl) (fun _ _ => List.not_mem_nil) parent
  | some other =>
    rw [Pass.begin_reference href, h.captures_reference, Option.some.injEq, eq_comm (a := name)]
    exact or_congr_right (and_congr_right fun he => by rw [he])

end Begin

/-! ## The way out of a node -/

theorem mem_classify {table : ScopeTable} {scope : ScopeId} (names : List String)
    (captured : NameSet) :
    (name ∈ (Pass.classify table scope names captured).1 ↔
      name ∈ captured ∨ name ∈ names ∧ ∃ b node, table.resolve scope name = .outer b node) ∧
    (name ∈ (Pass.classify table scope names captured).2 ↔
      name ∈ names ∧ table.resolve scope name = .free) := by
  constructor
  · refine foldl_iff (P := fun sets : NameSet × NameSet => name ∈ sets.1)
      (fun sets other => ?_) names (captured, ∅)
    rcases eq_or_ne name other with rfl | hne
    · cases table.resolve scope name <;> simp
    · cases table.resolve scope other <;> simp [hne]
  · refine (foldl_iff (P := fun sets : NameSet × NameSet => name ∈ sets.2)
      (Q := table.resolve scope name = .free) (fun sets other => ?_) names (captured, ∅)).trans
      (or_iff_right List.not_mem_nil)
    rcases eq_or_ne name other with rfl | hne
    · cases table.resolve scope name <;> simp
    · cases table.resolve scope other <;> simp [hne]

theorem mem_handedOver {table : ScopeTable} {scope : ScopeId} {names : List String} :
    name ∈ Pass.handedOver table scope names ↔
      name ∈ names ∧ ¬ ∃ node, table.resolve scope name = .own node := by
  unfold Pass.handedOver
  rw [List.mem_filter]
  refine and_congr_right fun _ => ?_
  split
  · next node hown => simp [hown]
  · next hown => simpa using hown

theorem holds_finish_inner (hcontext : n.kind.isContext = false) {P : Frame → Prop}
    (hP : ∀ f blocks, P { f with blocks := blocks } ↔ P f) :
    (p.finish tracking n).Holds id P ↔ p.Holds id P := by
  obtain ⟨hframes, htable⟩ := Pass.finish_inner p tracking hcontext
  unfold Pass.Holds
  rw [hframes, htable.scopeId?]
  exact exists_mem_onInnermost (fun f => and_congr_right fun _ => hP f _) p.frames

section Leave

variable (ht : Tree.ofDocument d = .ok t) (hn : (n, around) ∈ t.sites)
  (hcontext : n.kind.isContext = true) (hlt : n.id < k) (h : Walking t tracking k (n :: around) p)

include ht hn hcontext h

/-- The innermost frame is that of the context that is left, and the rest are those of the contexts
    around it. -/
theorem exists_innermost : ∃ f rest, p.frames = f :: rest ∧
    List.Forall₂ (Mirrors p.table tracking) rest (enclosures around) ∧
    p.table.scopeId? n.id = some f.scope ∧ (∀ P : Frame → Prop, p.Holds n.id P ↔ P f) ∧
    ∀ (id : NodeId) (P : Frame → Prop), id ≠ n.id ∧ p.Holds id P ↔
      ∃ g ∈ rest, p.table.scopeId? id = some g.scope ∧ P g := by
  have hframes := h.frames
  rw [enclosures_of_context hcontext] at hframes
  obtain ⟨f, rest, hf, hrest, hfs⟩ := List.forall₂_cons_right_iff.mp hframes
  have hdistinct : ∀ g ∈ rest, p.table.scopeId? n.id ≠ some g.scope := by
    intro g hg hscope
    obtain ⟨e, he, hm⟩ := exists_mirror hrest hg
    have hmem := (exists_enclosure_iff.mp ⟨e, he, rfl⟩).1
    have hid := h.scopeId?_inj hm.scope hscope
    exact absurd hid (Nat.ne_of_lt (Tree.id_lt_of_mem_around ht hn _ hmem))
  refine ⟨f, rest, hfs, hrest, hf.scope, fun P => ?_, fun id P => ?_⟩
  · unfold Pass.Holds
    rw [hfs, List.exists_mem_cons_iff, and_iff_right hf.scope, or_iff_left]
    exact fun ⟨g, hg, hscope, _⟩ => hdistinct g hg hscope
  · unfold Pass.Holds
    rw [hfs, List.exists_mem_cons_iff]
    constructor
    · rintro ⟨hne, ⟨hscope, -⟩ | hg⟩
      · exact absurd (h.scopeId?_inj hscope hf.scope) hne
      · exact hg
    · rintro ⟨g, hg, hscope, hP⟩
      exact ⟨fun he => hdistinct g hg (he ▸ hscope), .inr ⟨g, hg, hscope, hP⟩⟩

/-- What a context does not bind itself is handed to the enclosing one. -/
theorem refers_finish (hlt : n.id < k) : (p.finish tracking n).Refers id name ↔
    id ≠ n.id ∧ p.Refers id name ∨
      (nearestContext? around).map (·.id) = some id ∧ p.Refers n.id name ∧
        ¬ p.table.BindsAt n.id name := by
  obtain ⟨f, rest, hfs, hrest, hscope, hself, hothers⟩ := h.exists_innermost ht hn hcontext
  obtain ⟨hframes, htable⟩ := Pass.finish_context tracking hcontext hfs
  have hid : (p.finish tracking n).table.scopeId? id = p.table.scopeId? id := htable.scopeId? id
  unfold Pass.Refers
  rw [hothers, hself, ← h.innermost_iff hrest, Pass.Holds, hframes, hid]
  refine (exists_refs_onInnermost _ rest).trans (or_congr_right (and_congr_right fun _ => ?_))
  rw [mem_handedOver, h.resolve_own_iff ht hn hcontext hlt hscope, NameSet.mem_def]

theorem captures_finish : (p.finish tracking n).Captures id name ↔
    id ≠ n.id ∧ p.Captures id name := by
  obtain ⟨f, rest, hfs, hrest, hscope, hself, hothers⟩ := h.exists_innermost ht hn hcontext
  obtain ⟨hframes, htable⟩ := Pass.finish_context tracking hcontext hfs
  have hid : (p.finish tracking n).table.scopeId? id = p.table.scopeId? id := htable.scopeId? id
  unfold Pass.Captures
  rw [hothers, Pass.Holds, hframes, hid]
  refine exists_mem_onInnermost (fun g => and_congr ?_ ?_) rest
  · rw [show (List.foldl Frame.addRef g _).scope = g.scope from
      congrArg Prod.fst (Frame.place_foldl_addRef _ g)]
  · rw [captured_foldl_addRef]

/-- What the scope of a context has once the context is left. -/
theorem has_finish (hlt : n.id < k) : ∃ f rest, p.frames = f :: rest ∧
    p.table.scopeId? n.id = some f.scope ∧ (∀ P : Frame → Prop, p.Holds n.id P ↔ P f) ∧
    ∀ P : NameSet × NameSet → Prop,
      (p.finish tracking n).table.Has n.id (fun s => P (s.upvars, s.freevars)) ↔
        P (Pass.classify p.table f.scope f.refs.names f.captured) := by
  obtain ⟨f, rest, hfs, -, hscope, hself, -⟩ := h.exists_innermost ht hn hcontext
  obtain ⟨-, htable⟩ := Pass.finish_context tracking hcontext hfs
  obtain ⟨s, hs, -⟩ := h.owned n around hn hcontext hlt
  refine ⟨f, rest, hfs, hscope, hself, fun P => ?_⟩
  unfold ScopeTable.Has
  rw [htable.functionScope?, ScopeTable.functionScope?_modifyScope, if_pos hscope, hs]
  simp

/-- The names of a context are sorted by what the contexts around it bind throughout. -/
theorem has_upvars_finish (hlt : n.id < k) :
    (p.finish tracking n).table.Has n.id (name ∈ ·.upvars) ↔
      p.Captures n.id name ∨ p.Refers n.id name ∧ ¬ p.table.BindsAt n.id name ∧
        ∃ c ∈ around, c.kind.isContext = true ∧ p.table.BindsAt c.id name := by
  obtain ⟨f, rest, -, hscope, hself, hhas⟩ := h.has_finish ht hn hcontext hlt
  rw [hhas (name ∈ ·.1), (mem_classify _ _).1, Pass.Captures, hself, Pass.Refers, hself,
    h.resolve_outer_iff ht hn hcontext hlt hscope, NameSet.mem_def (s := f.refs)]

theorem has_freevars_finish (hlt : n.id < k) :
    (p.finish tracking n).table.Has n.id (name ∈ ·.freevars) ↔ p.Refers n.id name ∧
      ∀ c ∈ n :: around, c.kind.isContext = true → ¬ p.table.BindsAt c.id name := by
  obtain ⟨f, rest, -, hscope, hself, hhas⟩ := h.has_finish ht hn hcontext hlt
  rw [hhas (name ∈ ·.2), (mem_classify _ _).2, Pass.Refers, hself,
    h.resolve_free_iff ht hn hcontext hlt hscope, NameSet.mem_def]

end Leave

/-- On the way out of a node no other context changes. -/
theorem functionScope?_finish_of_ne (h : Walking t tracking k (n :: around) p)
    (hid : n.kind.isContext = true → id ≠ n.id) :
    (p.finish tracking n).table.functionScope? id = p.table.functionScope? id := by
  cases hcontext : n.kind.isContext with
  | false => exact (Pass.finish_inner p tracking hcontext).2.functionScope? id
  | true =>
    have hframes := h.frames
    rw [enclosures_of_context hcontext] at hframes
    obtain ⟨f, rest, hf, -, hfs⟩ := List.forall₂_cons_right_iff.mp hframes
    rw [(Pass.finish_context tracking hcontext hfs).2.functionScope?,
      ScopeTable.functionScope?_modifyScope, if_neg]
    exact fun hscope => hid hcontext (h.scopeId?_inj hscope hf.scope)

end Walking

end ScriptSandbox.Scope
