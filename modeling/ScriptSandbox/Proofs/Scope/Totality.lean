import ScriptSandbox.Proofs.Scope.Scanning

/-
  Annotation is total.

  All numbers that a pass keeps are in range: its frames have scopes of the table, and the parent of
  a scope came before it, so that the chains of scopes end (`Pass.InRange`). In such a state each
  part of the checked pass succeeds and computes what the same part of the pass over the tree
  computes, which leaves the numbers in range. So the whole walk succeeds, whatever the document,
  and reaches every number once (`annotate_total`).
-/

namespace ScriptSandbox.Scope

open Syntax

/-! ## Numbers in range -/

/-- Tables with entries for as many nodes, and with the same chains of scopes. -/
structure ScopeTable.SameShape (t t' : ScopeTable) : Prop where
  info : t.info.size = t'.info.size
  parents : t.scopes.map FunctionScope.parent = t'.scopes.map FunctionScope.parent

/-- The numbers that a pass keeps are in range. -/
structure Pass.InRange (size : Nat) (p : Pass) : Prop where
  info : p.table.info.size = size
  frames : ∀ i ∈ p.frames.map (·.scope), i < p.table.scopes.size
  /-- The scope around another came before it. -/
  parents : ∀ i (s : FunctionScope), p.table.scopes[i]? = some s →
    ∀ j, s.parent = some j → j < i

namespace ScopeTable.SameShape

variable {t t' t'' : ScopeTable}

theorem refl (t : ScopeTable) : t.SameShape t := ⟨rfl, rfl⟩

theorem trans (h : t.SameShape t') (h' : t'.SameShape t'') : t.SameShape t'' :=
  ⟨h.info.trans h'.info, h.parents.trans h'.parents⟩

theorem of_sameScopes (h : t.SameScopes t') : t.SameShape t' := ⟨h.size, by rw [h.scopes]⟩

theorem size (h : t.SameShape t') : t.scopes.size = t'.scopes.size := by
  simpa using congrArg Array.size h.parents

theorem modifyScope (t : ScopeTable) (i : ScopeId) {f : FunctionScope → FunctionScope}
    (hf : ∀ s, (f s).parent = s.parent) : (t.modifyScope i f).SameShape t := by
  refine ⟨rfl, Array.ext_getElem? fun j => ?_⟩
  rw [Array.getElem?_map, Array.getElem?_map, ScopeTable.scopes_modifyScope]
  split
  · cases t.scopes[j]? <;> simp [hf]
  · rfl

theorem modifyInnermost (p : Pass) {f : FunctionScope → FunctionScope}
    (hf : ∀ s, (f s).parent = s.parent) : (p.modifyInnermost f).SameShape p.table := by
  unfold Pass.modifyInnermost
  split
  · exact .refl _
  · exact .modifyScope _ _ hf

end ScopeTable.SameShape

namespace Pass.InRange

variable {size : Nat} {tracking : Bool} {parent : Option Node} {p q : Pass} {n : Node}

theorem of_subset (h : p.InRange size) (hshape : q.table.SameShape p.table)
    (hframes : q.frames.map (·.scope) ⊆ p.frames.map (·.scope)) : q.InRange size := by
  refine ⟨hshape.info.trans h.info, fun i hi => ?_, fun i s hs j hj => ?_⟩
  · rw [hshape.size]
    exact h.frames i (hframes hi)
  · have hparents := congrArg (fun parents => parents[i]?) hshape.parents
    simp only [Array.getElem?_map, hs, Option.map_some] at hparents
    obtain ⟨s', hs', hparent⟩ := Option.map_eq_some_iff.mp hparents.symm
    exact h.parents i s' hs' j (hparent.trans hj)

theorem of_same (h : p.InRange size) (hshape : q.table.SameShape p.table)
    (hframes : q.frames.map (·.scope) = p.frames.map (·.scope)) : q.InRange size :=
  h.of_subset hshape (hframes ▸ List.Subset.refl _)

theorem scopes_onInnermost {f : Frame → Frame} (hf : ∀ fr, (f fr).scope = fr.scope)
    (frames : List Frame) : (onInnermost f frames).map (·.scope) = frames.map (·.scope) := by
  cases frames <;> simp [onInnermost, hf]

theorem start (size : Nat) : InRange size ⟨[], .blank size⟩ := by
  refine ⟨by simp [ScopeTable.blank], by simp, fun i s hs => ?_⟩
  simp [ScopeTable.blank] at hs

theorem reference (h : p.InRange size) (name : String) : (p.reference name).InRange size := by
  refine h.of_same ?_ ?_
  · rw [table_reference]
    exact .refl _
  · have hplace := congrArg (List.map Prod.fst) (map_place_reference p name)
    rw [List.map_map, List.map_map] at hplace
    exact hplace

theorem setSrcName (h : p.InRange size) (id : NodeId) (label : String) :
    (p.setSrcName id label).InRange size :=
  h.of_same (.of_sameScopes (sameScopes_setSrcName p id label)) rfl

theorem enter (h : p.InRange size) (n : Node) : (p.enter n).InRange size := by
  cases href : n.reference? with
  | some name =>
    have henter : p.enter n = p.reference name := by
      unfold Node.reference? at href
      split at href
      · next hn => simp [Pass.enter, hn.1, hn.2, href]
      · cases href
    exact henter ▸ h.reference name
  | none =>
    obtain ⟨hframes, htable⟩ := enter_eq (p := p) href
    refine h.of_same (.trans (.of_sameScopes htable) (.modifyInnermost p fun s => ?_)) ?_
    · exact (FunctionScope.sameContext_noteFunction n s).parent
    · rw [hframes]

theorem declare (h : p.InRange size) (tracking : Bool) (parent : Option Node) (n : Node) :
    (if declares n.kind then p.declare tracking parent n else p).InRange size := by
  rw [declare_eq]
  exact h.of_same (.modifyInnermost p fun s => (FunctionScope.sameContext_foldl _ _ s).parent) rfl

theorem enterContext (h : p.InRange size) (tracking : Bool) (n : Node) :
    (p.enterContext tracking n).InRange size := by
  have htable : (p.enterContext tracking n).table.SameScopes
      (p.table.pushScope (entered tracking (p.frames.head?.map (·.scope)) n)) :=
    sameScopes_enterContext
  have hentered := sameContext_entered tracking (p.frames.head?.map (·.scope)) n
  refine ⟨?_, ?_, ?_⟩
  · rw [htable.size, ScopeTable.size_info_pushScope, h.info]
  · rw [htable.scopes, ScopeTable.scopes_pushScope, Array.size_push]
    exact List.forall_mem_cons.mpr ⟨Nat.lt_succ_self _, fun i hi =>
      Nat.lt_succ_of_lt (h.frames i hi)⟩
  · intro i s hs j hj
    rw [htable.scopes, ScopeTable.scopes_pushScope, Array.getElem?_push] at hs
    split at hs
    · next hi =>
      cases hs
      rw [hentered.parent] at hj
      obtain ⟨f, hf, rfl⟩ := Option.map_eq_some_iff.mp hj
      exact hi ▸ h.frames f.scope (List.mem_map_of_mem (List.mem_of_head? hf))
    · exact h.parents i s hs j hj

theorem openBlock (h : p.InRange size) (tracking : Bool) (n : Node) :
    (p.openBlock tracking n).InRange size := by
  rw [openBlock_eq]
  exact h.of_same (.refl _) (scopes_onInnermost (by intro; rfl) _)

theorem closeBlock (h : p.InRange size) (tracking : Bool) (n : Node) :
    (p.closeBlock tracking n).InRange size := by
  rw [closeBlock_eq]
  exact h.of_same (.refl _) (scopes_onInnermost (by intro; rfl) _)

theorem exitContext (h : p.InRange size) : p.exitContext.InRange size := by
  cases hf : p.frames with
  | nil =>
    have hnone : p.exitContext = p := by simp [Pass.exitContext, hf]
    exact hnone.symm ▸ h
  | cons f rest =>
    rw [exitContext_eq hf]
    refine h.of_subset (.modifyScope _ _ fun _ => rfl) ?_
    rw [scopes_onInnermost fun fr => congrArg Prod.fst (Frame.place_foldl_addRef _ fr), hf]
    exact List.subset_cons_self _ _

theorem exit (h : p.InRange size) (n : Node) : (p.exit n).InRange size := by
  obtain ⟨hframes, htable⟩ := sameScopes_exit p n
  exact h.of_same (.of_sameScopes htable) (by rw [hframes])

theorem «begin» (h : p.InRange size) (tracking : Bool) (parent : Option Node) (n : Node) :
    (p.begin tracking parent n).InRange size := by
  have hdeclared := (h.enter n).declare tracking parent n
  refine InRange.openBlock ?_ tracking n
  split
  · exact hdeclared.enterContext tracking n
  · exact hdeclared

theorem finish (h : p.InRange size) : (p.finish tracking n).InRange size := by
  have hclosed := h.closeBlock tracking n
  refine InRange.exit ?_ n
  split
  · exact hclosed.exitContext
  · exact hclosed

end Pass.InRange

namespace Checked

/-! ## Lookups in a table -/

section

variable {table : ScopeTable}

theorem info_eq {id : NodeId} (hid : id < table.info.size) :
    ∃ i, table.info[id]? = some i ∧ info table id = .ok i := by
  refine ⟨table.info[id], Array.getElem?_eq_getElem hid, ?_⟩
  rw [info, Array.getElem?_eq_getElem hid]

theorem scope_eq {i : ScopeId} (hi : i < table.scopes.size) :
    ∃ s, table.scopes[i]? = some s ∧ scope table i = .ok s := by
  refine ⟨table.scopes[i], Array.getElem?_eq_getElem hi, ?_⟩
  rw [scope, Array.getElem?_eq_getElem hi]

theorem modifyInfo_eq {id : NodeId} (hid : id < table.info.size) (f : NodeInfo → NodeInfo) :
    modifyInfo table id f = .ok (table.modifyInfo id f) := by
  obtain ⟨i, -, hi⟩ := info_eq hid
  rw [modifyInfo, hi]
  rfl

theorem modifyScope_eq {i : ScopeId} (hi : i < table.scopes.size)
    (f : FunctionScope → FunctionScope) :
    modifyScope table i f = .ok (table.modifyScope i f) := by
  obtain ⟨s, -, hs⟩ := scope_eq hi
  rw [modifyScope, hs]
  rfl

theorem pushScope_eq {s : FunctionScope} (hs : s.node < table.info.size) :
    pushScope table s = .ok (table.pushScope s) := by
  obtain ⟨i, -, hi⟩ := info_eq hs
  rw [pushScope, hi]
  rfl

theorem srcName_eq {id : NodeId} (hid : id < table.info.size) :
    ∃ i, info table id = .ok i ∧ i.srcName = table.srcName? id := by
  obtain ⟨i, hi, he⟩ := info_eq hid
  exact ⟨i, he, by simp [ScopeTable.srcName?, hi]⟩

end

/-- Steps that succeed at every element give the results of all elements. -/
theorem mapM_eq {α β : Type} {f : α → Except Stray β} {g : α → β} {l : List α}
    (h : ∀ x ∈ l, f x = .ok (g x)) : l.mapM f = .ok (l.map g) := by
  induction l with
  | nil => rfl
  | cons x l ih =>
    obtain ⟨hx, hl⟩ := List.forall_mem_cons.mp h
    rw [List.mapM_cons, hx, ok_bind, ih hl, ok_bind]
    rfl

/-! ## Names -/

theorem blockOwner?_eq {table : ScopeTable} {name : String} {frames : List Frame}
    (h : ∀ i ∈ frames.map (·.scope), i < table.scopes.size) :
    blockOwner? table name frames = .ok (Pass.blockOwner? table name frames) := by
  induction frames with
  | nil => rfl
  | cons f rest ih =>
    obtain ⟨hf, hrest⟩ := List.forall_mem_cons.mp h
    obtain ⟨s, hs, he⟩ := scope_eq hf
    unfold blockOwner? Pass.blockOwner?
    rw [he, ok_bind, hs, Option.map_some, Option.getD_some, ih hrest, ok_bind]
    split
    · rfl
    · split <;> rfl

theorem blockOwner?_lt {table : ScopeTable} {name : String} {frames : List Frame} {inner : Nat}
    (h : Pass.blockOwner? table name frames = some inner) : inner < frames.length := by
  induction frames generalizing inner with
  | nil => cases h
  | cons f rest ih =>
    unfold Pass.blockOwner? at h
    split at h
    · cases h
      exact Nat.zero_lt_succ _
    · split at h
      · cases h
      · obtain ⟨inner, hinner, rfl⟩ := Option.map_eq_some_iff.mp h
        exact Nat.succ_lt_succ (ih hinner)

section

variable {size : Nat} {p : Pass} (hp : p.InRange size)

include hp

theorem reference_eq (name : String) : reference p name = .ok (p.reference name) := by
  unfold reference Pass.reference
  rw [blockOwner?_eq hp.frames, ok_bind]
  cases howner : Pass.blockOwner? p.table name p.frames with
  | none => rfl
  | some inner =>
    simp only [if_pos (blockOwner?_lt howner)]
    rfl

/-- A chain of scopes falls, so it ends within as many steps as its first number allows. -/
theorem binderFrom_eq (name : String) (rounds : Nat) (from? : Option ScopeId)
    (hscope : ∀ i ∈ from?, i < p.table.scopes.size) (hrounds : ∀ i ∈ from?, i < rounds) :
    binderFrom p.table name rounds from? = .ok (p.table.binderWithin name rounds from?) := by
  induction rounds generalizing from? with
  | zero =>
    cases from? with
    | none => rfl
    | some i => exact absurd (hrounds i rfl) (Nat.not_lt_zero i)
  | succ rounds ih =>
    cases from? with
    | none => rfl
    | some i =>
      obtain ⟨s, hs, he⟩ := scope_eq (hscope i rfl)
      have hparent : ∀ j ∈ s.parent, j < i := hp.parents i s hs
      have hrest := ih s.parent
        (fun j hj => Nat.lt_trans (hparent j hj) (hscope i rfl))
        (fun j hj => Nat.lt_of_lt_of_le (hparent j hj) (Nat.le_of_lt_succ (hrounds i rfl)))
      unfold binderFrom ScopeTable.binderWithin
      rw [he, ok_bind, hs]
      cases hfound : s.declaration? name with
      | none => simpa only [hfound] using hrest
      | some node => simp only [hfound]; rfl

theorem resolve_eq {i : ScopeId} (hi : i < p.table.scopes.size) (name : String) :
    resolve p.table i name = .ok (p.table.resolve i name) := by
  have hfrom : ∀ j ∈ some i, j < p.table.scopes.size := by
    rintro j ⟨⟩
    exact hi
  unfold resolve ScopeTable.resolve
  rw [binderFrom_eq hp name _ _ hfrom hfrom, ok_bind]
  cases p.table.binderWithin name p.table.scopes.size (some i) <;> rfl

end

/-! ## Contexts and blocks -/

section

variable {d : Document} {t : Tree} {tracking : Bool} {path : List Node} {n : Node} {p : Pass}

theorem record_eq {table : ScopeTable} {scope : ScopeId} (hscope : scope < table.scopes.size)
    (made : Declaration) :
    record tracking scope table made = .ok (Pass.record tracking scope table made) := by
  obtain ⟨name, node, binding⟩ := made
  cases binding with
  | var => exact modifyScope_eq hscope _
  | lexical =>
    cases tracking with
    | true => exact modifyScope_eq hscope _
    | false => rfl

theorem foldlM_record {table : ScopeTable} {scope : ScopeId} (hscope : scope < table.scopes.size)
    (made : List Declaration) :
    made.foldlM (record tracking scope) table =
      .ok (made.foldl (Pass.record tracking scope) table) := by
  induction made generalizing table with
  | nil => rfl
  | cons first rest ih =>
    have hkept : scope < (Pass.record tracking scope table first).scopes.size := by
      rw [Pass.record_eq, ScopeTable.size_scopes_modifyScope]
      exact hscope
    rw [List.foldlM_cons, record_eq hscope, ok_bind, ih hkept, List.foldl_cons]

section

variable (ht : Tree.ofDocument d = .ok t) (hn : (n, path) ∈ t.sites) (hp : p.InRange t.size)

include ht hn

theorem id_lt (hp : p.InRange t.size) : n.id < p.table.info.size := by
  rw [hp.info]
  exact Tree.id_lt_size ht hn

include hp

theorem declare_eq : declare t.arena tracking n.id p = .ok (p.declare tracking path.head? n) := by
  unfold declare Pass.declare
  cases hframes : p.frames with
  | nil => rfl
  | cons f rest =>
    have hscope : f.scope < p.table.scopes.size := hp.frames _ (by simp [hframes])
    simp only [declarations_eq ht hn, ok_bind, foldlM_record hscope]
    rfl

theorem enterContext_eq (parent : Option NodeId) :
    enterContext t.arena tracking n.id (n.entry parent) p = .ok (p.enterContext tracking n) := by
  have hlt : n.id < p.table.info.size := id_lt ht hn hp
  have hpush : pushScope p.table
      (Pass.freshScope (p.frames.head?.map (·.scope)) ((n.entry parent).bare n.id)) =
      .ok (p.table.pushScope (Pass.freshScope (p.frames.head?.map (·.scope)) n)) :=
    pushScope_eq hlt
  have hscope : p.table.scopes.size <
      (p.table.pushScope (Pass.freshScope (p.frames.head?.map (·.scope)) n)).scopes.size := by
    rw [ScopeTable.scopes_pushScope, Array.size_push]
    exact Nat.lt_succ_self _
  unfold enterContext Pass.enterContext
  rw [hpush, ok_bind, hoisted_eq ht hn, ok_bind, foldlM_record hscope, ok_bind, isStrict_eq ht hn,
    ok_bind]
  cases Scope.isStrict n with
  | false => rfl
  | true =>
    simp only [if_true]
    rw [modifyInfo_eq, ok_bind]
    · rfl
    · rw [Pass.foldl_record]
      exact (ScopeTable.size_info_pushScope _).symm ▸ hlt

omit hp in
theorem openBlock_eq (parent : Option NodeId) :
    openBlock t.arena tracking n.id (n.entry parent) p = .ok (p.openBlock tracking n) := by
  unfold openBlock Pass.openBlock
  rw [Node.kind_entry]
  split
  · rw [blockNames_eq ht hn]
    rfl
  · rfl

end

theorem exitContext_eq {size : Nat} (hp : p.InRange size) : exitContext p = .ok p.exitContext := by
  unfold exitContext Pass.exitContext
  cases hframes : p.frames with
  | nil => rfl
  | cons f rest =>
    have hscope : f.scope < p.table.scopes.size := hp.frames _ (by simp [hframes])
    have hfound : (f.refs.names.mapM fun name => do
        return (name, ← resolve p.table f.scope name)) =
        .ok (f.refs.names.map fun name => (name, p.table.resolve f.scope name)) :=
      mapM_eq fun name _ => by rw [resolve_eq hp hscope]; rfl
    simp only [hfound, ok_bind, modifyScope_eq hscope, List.foldl_map, List.filter_map,
      Pass.classify, Pass.handedOver]
    rfl

end

/-! ## Labels -/

theorem setSrcName_eq {p : Pass} {id : NodeId} (hid : id < p.table.info.size) (label : String) :
    setSrcName p id label = .ok (p.setSrcName id label) := by
  rw [setSrcName, modifyInfo_eq hid]
  rfl

section

variable {d : Document} {t : Tree} {tracking : Bool} {path : List Node} {n : Node} {p : Pass}
  (ht : Tree.ofDocument d = .ok t) (hn : (n, path) ∈ t.sites) (hp : p.InRange t.size)

include ht hn

theorem ownLabel?_eq (parent : Option NodeId) :
    ownLabel? t.arena (n.entry parent) = .ok ((n.child? "label").bind (·.stringData? "name")) := by
  unfold ownLabel?
  rw [(Tree.linked ht hn).child?_entry]
  cases hchild : n.child? "label" with
  | none => rfl
  | some c =>
    simp only [Option.map_some]
    rw [entry_eq ht (Tree.mem_sites_cons.mpr ⟨hn, Node.child?_mem hchild⟩)]
    rfl

include hp

theorem child_lt {c : Node} (hc : c ∈ n.children) : c.id < p.table.info.size :=
  id_lt ht (Tree.mem_sites_cons.mpr ⟨hn, hc⟩) hp

theorem labelOf_eq (parent : Option NodeId) (key : String) :
    labelOf p.table (n.entry parent) key =
      .ok ((n.child? key).bind fun c => p.table.srcName? c.id) := by
  unfold labelOf
  rw [(Tree.linked ht hn).child?_entry]
  cases hchild : n.child? key with
  | none => rfl
  | some c =>
    obtain ⟨i, hi, hlabel⟩ := srcName_eq (child_lt ht hn hp (Node.child?_mem hchild))
    simp only [Option.map_some, hi, ok_bind, Option.bind_some, ← hlabel]
    rfl

theorem exitLabel?_eq (parent : Option NodeId) :
    exitLabel? p.table n.id (n.entry parent) = .ok (Scope.exitLabel? p.table n) := by
  have helements : (((n.entry parent).list? "elements").getD []).mapM (elementLabel p.table) =
      .ok (((n.list? "elements").getD []).map fun slot =>
        (slot.bind p.table.srcName?).getD "") := by
    rw [Node.list?_entry]
    refine mapM_eq fun slot hslot => ?_
    cases slot with
    | none => rfl
    | some id =>
      obtain ⟨c, hc, rfl⟩ := Tree.linked ht hn "elements" id (Node.mem_idsIn_of_mem_slots hslot)
      obtain ⟨i, hi, hlabel⟩ := srcName_eq (child_lt ht hn hp hc)
      rw [elementLabel, hi, ok_bind, Option.bind_some, ← hlabel]
      rfl
  unfold exitLabel? Scope.exitLabel?
  simp only [Node.kind_entry, labelOf_eq ht hn hp, ok_bind]
  cases n.kind with
  | arrayExpression =>
    exact congrArg (· >>= fun labels => .ok (some ("[" ++ ",".intercalate labels ++ "]"))) helements
  | _ => rfl

/-! ## The walk -/

theorem enter_eq (parent : Option NodeId) :
    enter t.arena n.id (n.entry parent) p = .ok (p.enter n) := by
  have hlt := id_lt ht hn hp
  unfold enter Pass.enter
  rw [Node.kind_entry]
  cases n.kind with
  | identifier =>
    have hentry : (n.entry parent).role = .name ↔ n.role = .name := Iff.rfl
    simp only [Node.stringData?_bare_entry]
    by_cases hrole : n.role = .name
    · rw [if_pos (hentry.mpr hrole), if_pos hrole]
    · rw [if_neg (mt hentry.mp hrole), if_neg hrole]
      cases n.stringData? "name" with
      | none => rfl
      | some name => exact reference_eq hp name
  | thisExpression => exact setSrcName_eq hlt _
  | labeledStatement =>
    simp only [ownLabel?_eq ht hn, ok_bind, (Tree.linked ht hn).child?_entry]
    cases (n.child? "label").bind (·.stringData? "name") with
    | none => rfl
    | some label =>
      cases hbody : n.child? "body" with
      | none => rfl
      | some body =>
        simp only [Option.map_some, modifyInfo_eq (child_lt ht hn hp (Node.child?_mem hbody))]
        rfl
  | functionDeclaration =>
    have hname : nameOf? ((n.entry parent).bare n.id) = nameOf? n := rfl
    simp only [hname]
    cases nameOf? n with
    | none => rfl
    | some name =>
      simp only [setSrcName_eq hlt, ok_bind]
      cases hframes : p.frames with
      | nil => simp only [Pass.setSrcName, hframes]; rfl
      | cons f rest =>
        have hscope : f.scope < p.table.scopes.size := hp.frames _ (by simp [hframes])
        simp only [Pass.setSrcName, hframes]
        rw [modifyScope_eq]
        · rfl
        · exact hscope
  | _ => rfl

omit ht hn hp in
theorem onlyIf_eq {applies : Bool} {step : Pass → Except Stray Pass} {q : Pass}
    (h : step p = .ok q) : onlyIf applies step p = .ok (if applies then q else p) := by
  cases applies with
  | false => rfl
  | true => exact h

theorem begin_eq : Checked.begin t.arena tracking n.id (n.entry (path.head?.map (·.id))) p =
    .ok (p.begin tracking path.head? n) := by
  have hentered := hp.enter n
  unfold Checked.begin Pass.begin
  rw [enter_eq ht hn hp, ok_bind, Node.kind_entry, onlyIf_eq (declare_eq ht hn hentered), ok_bind,
    onlyIf_eq (enterContext_eq ht hn (hentered.declare tracking _ n) _), ok_bind,
    openBlock_eq ht hn]

theorem finish_eq : finish tracking n.id (n.entry (path.head?.map (·.id))) p =
    .ok (p.finish tracking n) := by
  have hclosed := hp.closeBlock tracking n
  have hleft : (if n.kind.isContext then (p.closeBlock tracking n).exitContext
      else p.closeBlock tracking n).InRange t.size := by
    split
    · exact hclosed.exitContext
    · exact hclosed
  change (onlyIf n.kind.isContext exitContext (p.closeBlock tracking n) >>=
    Checked.exit n.id (n.entry (path.head?.map (·.id)))) = _
  rw [onlyIf_eq (exitContext_eq hclosed), ok_bind, Checked.exit, exitLabel?_eq ht hn hleft, ok_bind]
  simp only [Pass.finish, Pass.exit]
  cases Scope.exitLabel? _ n with
  | none => rfl
  | some label => exact setSrcName_eq (id_lt ht hn hleft) label

omit hp in
/-- The walk from a node succeeds and reaches the numbers that the node spans. -/
theorem visit_eq (tracking : Bool) {i j : Nat} (hs : n.Spans i j) (depth : Nat)
    (hdepth : j ≤ i + depth) (hp : p.InRange t.size) (reached : List NodeId) :
    visit t.arena tracking depth n.id (p, reached) =
        .ok (Pass.visit tracking path.head? n p, reached ++ List.range' i (j - i)) ∧
      (Pass.visit tracking path.head? n p).InRange t.size := by
  refine Tree.walk_induct
    (fun n path i j => ∀ depth, j ≤ i + depth → ∀ p : Pass, p.InRange t.size → ∀ reached,
      visit t.arena tracking depth n.id (p, reached) =
          .ok (Pass.visit tracking path.head? n p, reached ++ List.range' i (j - i)) ∧
        (Pass.visit tracking path.head? n p).InRange t.size)
    (fun ns path i j => ∀ depth, j ≤ i + depth → ∀ p : Pass, p.InRange t.size → ∀ reached,
      (ns.map (·.id)).foldlM (fun s c => visit t.arena tracking depth c s) (p, reached) =
          .ok (ns.foldl (fun p c => Pass.visit tracking path.head? c p) p,
            reached ++ List.range' i (j - i)) ∧
        (ns.foldl (fun p c => Pass.visit tracking path.head? c p) p).InRange t.size)
    ?below ?nil ?cons hn hs depth hdepth p hp reached
  case below =>
    intro n path j hn hlt hall depth hdepth p hp reached
    obtain ⟨depth, rfl⟩ : ∃ depth', depth = depth' + 1 := ⟨depth - 1, by omega⟩
    obtain ⟨hbelow, hkept⟩ := hall depth (by omega) _ (hp.begin tracking path.head? n)
      (reached ++ [n.id])
    have hsplit : j - n.id = (j - (n.id + 1)) + 1 := by omega
    rw [Pass.visit_eq]
    refine ⟨?_, hkept.finish⟩
    rw [visit, entry_eq ht hn, ok_bind, begin_eq ht hn hp, ok_bind, Node.children_entry, hbelow,
      ok_bind, hsplit, List.range'_succ]
    simp only [finish_eq ht hn hkept, ok_bind, List.append_assoc, List.singleton_append]
    rfl
  case nil =>
    intro path i depth _ p hp reached
    refine ⟨?_, hp⟩
    simp
    rfl
  case cons =>
    intro c rest path i mid j hstart hend hfirst hothers depth hdepth p hp reached
    obtain ⟨hvisit, hkept⟩ := hfirst depth (by omega) p hp reached
    obtain ⟨hrest, hkept⟩ := hothers depth (by omega) _ hkept
      (reached ++ List.range' i (mid - i))
    have hsplit : j - i = (mid - i) + (j - mid) := by omega
    have hmid : i + (mid - i) = mid := by omega
    refine ⟨?_, hkept⟩
    rw [List.map_cons, List.foldlM_cons, hvisit, ok_bind, List.foldl_cons, hsplit,
      ← List.range'_append_1, hmid, ← List.append_assoc]
    exact hrest

end

/-- Annotating a document that lowers finds whatever it looks up, with or without tracking and
    however its nodes are arranged: the walk ends, it reaches every node once and leaves no frame
    open, and the table is that of the annotation. -/
theorem annotate_total {d : Document} {t : Tree} (ht : Tree.ofDocument d = .ok t)
    (tracking : Bool) :
    Checked.annotate t.arena tracking =
      .ok (⟨[], Scope.annotate tracking t⟩, List.range t.size) := by
  have hroot : (t.root, []) ∈ t.sites := Node.self_mem_sites t.root []
  have hspans : t.root.Spans 0 t.size := (Tree.sound_ofDocument ht).1
  have hzero : t.root.id = 0 := (Node.spans_iff.mp hspans).1
  obtain ⟨hvisit, -⟩ := visit_eq ht hroot tracking hspans t.size
    (Nat.le_add_left _ _) (Pass.InRange.start t.size) []
  obtain ⟨hwalking, -⟩ := Walking.visit (J := fun _ _ _ => True) ht (fun _ _ _ => trivial)
    (fun _ _ _ _ => trivial) hroot hspans (Walking.start t tracking) trivial
  have hframes := List.forall₂_nil_right_iff.mp hwalking.frames
  have hpass : Pass.visit tracking none t.root ⟨[], .blank t.size⟩ =
      ⟨[], Scope.annotate tracking t⟩ :=
    congrArg (fun frames => (⟨frames, Scope.annotate tracking t⟩ : Pass)) hframes
  rw [hzero] at hvisit
  rw [Checked.annotate, Tree.length_arena ht, hvisit, List.range_eq_range']
  exact congrArg (fun p => Except.ok (p, List.range' 0 t.size)) hpass

end Checked

/-- `: function () {}` with a program in place of the block, which holds a hole, a declarator
    without declaration and a function declaration without body; the label has no name. -/
def malformedDocument : Document :=
  .object [
    ("type", .string "LabeledStatement"),
    ("label", .object [("type", .string "Identifier")]),
    ("body", .object [
      ("type", .string "FunctionExpression"),
      ("body", .object [
        ("type", .string "Program"),
        ("body", .array [
          .null,
          .object [
            ("type", .string "VariableDeclarator"),
            ("id", .object [("type", .string "Identifier"), ("name", .string "x")])],
          .object [
            ("type", .string "FunctionDeclaration"),
            ("id", .object [("type", .string "Identifier"), ("name", .string "f")])]])])])]

theorem annotate_total_malformed :
    ∃ t, Tree.ofDocument malformedDocument = .ok t ∧
      t.arena.map (fun e => e.kind.tag) =
        ["LabeledStatement", "Identifier", "FunctionExpression", "Program", "VariableDeclarator",
          "FunctionDeclaration"] ∧
      Checked.annotate t.arena true =
        .ok (⟨[], Scope.annotate true t⟩, [0, 1, 2, 3, 4, 5]) ∧
      (Scope.annotate true t).scopes.size = 3 := by
  have ⟨t, ht⟩ : ∃ t, Tree.ofDocument malformedDocument = .ok t := ⟨_, rfl⟩
  have htotal := Checked.annotate_total ht true
  cases ht
  exact ⟨_, rfl, rfl, htotal, rfl⟩

end ScriptSandbox.Scope
