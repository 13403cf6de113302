import ScriptSandbox.Proofs.Scope.Walk

/-
  Labels of statements.

  A labeled statement gives its label to the node that is its body, on the way in; nothing else that
  a walk does touches a label. So at the end the labelled nodes are the bodies of the labeled
  statements, each with the name that stands in front of it (`label?_annotate`).
-/

namespace ScriptSandbox

namespace Syntax.Node

/-- The label of a labeled statement, with the number of the body that it belongs to. -/
def bodyLabel? (n : Node) : Option (String × NodeId) :=
  if n.kind = .labeledStatement then
    match (n.child? "label").bind (·.stringData? "name"), n.child? "body" with
    | some label, some body => some (label, body.id)
    | _, _ => none
  else none

theorem bodyLabel?_eq_some {n : Node} {label : String} {id : NodeId} :
    n.bodyLabel? = some (label, id) ↔ n.kind = .labeledStatement ∧
      (n.child? "label").bind (·.stringData? "name") = some label ∧
      ∃ body, n.child? "body" = some body ∧ body.id = id := by
  unfold bodyLabel?
  split
  · next hk =>
    split
    · next l b hl hb => simp [hk, hl, hb]
    · next hnone =>
      simp only [reduceCtorEq, false_iff, not_and, not_exists]
      intro _ hl b hb _
      exact hnone _ _ hl hb
  · next hk => simp [hk]

end Syntax.Node

namespace Scope

open Syntax

namespace ScopeTable

variable {t : ScopeTable} {id : NodeId}

/-- The label of the statement that has this node as its body. -/
def label? (t : ScopeTable) (id : NodeId) : Option String := t.info[id]?.bind (·.label)

theorem label?_modifyInfo {f : NodeInfo → NodeInfo} (hf : ∀ i, (f i).label = i.label)
    (id' : NodeId) : (t.modifyInfo id' f).label? id = t.label? id :=
  bind_info_of_map_eq (map_info_modifyInfo hf) id

theorem label?_modifyInfo_label {id' : NodeId} (h : id' < t.info.size) (label : String) :
    (t.modifyInfo id' fun i => { i with label := some label }).label? id =
      if id' = id then some label else t.label? id := by
  simp only [label?, modifyInfo, Array.getElem?_modify]
  split
  · next he =>
    subst he
    simp [h]
  · rfl

@[simp] theorem label?_modifyScope (i : ScopeId) (f : FunctionScope → FunctionScope) :
    (t.modifyScope i f).label? id = t.label? id := rfl

end ScopeTable

namespace Pass

variable {p : Pass} {tracking : Bool} {parent : Option Node} {n : Node} {id : NodeId}

@[simp] theorem label?_setSrcName (p : Pass) (id' : NodeId) (text : String) :
    (p.setSrcName id' text).table.label? id = p.table.label? id := by
  refine ScopeTable.label?_modifyInfo ?_ id'
  exact fun _ => rfl

theorem table_enter_of_bodyLabel? {label : String} {body : NodeId}
    (h : n.bodyLabel? = some (label, body)) :
    (p.enter n).table = p.table.modifyInfo body fun i => { i with label := some label } := by
  obtain ⟨hk, hlabel, b, hb, rfl⟩ := Node.bodyLabel?_eq_some.mp h
  simp only [Pass.enter, hk, hlabel, hb]

theorem label?_enter_of_none (h : n.bodyLabel? = none) :
    (p.enter n).table.label? id = p.table.label? id := by
  unfold Pass.enter
  split
  · split
    · rfl
    · split
      · rw [table_reference]
      · rfl
  · simp
  · next hk =>
    split
    · next label body hlabel hbody =>
      rw [Node.bodyLabel?_eq_some.mpr ⟨hk, hlabel, body, hbody, rfl⟩] at h
      cases h
    · rfl
  · split
    · next name _ =>
      have hlabel : (p.setSrcName n.id (functionLabel name)).table.label? id = p.table.label? id :=
        label?_setSrcName ..
      dsimp only
      split
      · exact hlabel
      · rw [ScopeTable.label?_modifyScope, hlabel]
    · rfl
  · rfl

/-- The way into a node changes the label of the body of a labeled statement. -/
theorem label?_begin (p : Pass) (tracking : Bool) (parent : Option Node) (n : Node) (id : NodeId) :
    (p.begin tracking parent n).table.label? id = (p.enter n).table.label? id :=
  ScopeTable.bind_info_of_map_eq
    (map_info_begin (fun _ => rfl) (fun _ _ => rfl) p tracking parent n) id

/-- The way out of a node changes no label. -/
theorem label?_finish (p : Pass) (tracking : Bool) (n : Node) (id : NodeId) :
    (p.finish tracking n).table.label? id = p.table.label? id := by
  rw [ScopeTable.label?, info_finish, Pass.exit]
  split
  · exact label?_setSrcName ..
  · rfl

end Pass

/-! ## The labels of a walk -/

variable {d : Document} {t : Tree} {tracking : Bool} {n : Node} {around : List Node} {p : Pass}

theorem exists_site_of_bodyLabel? (hn : (n, around) ∈ t.sites) {label : String} {id : NodeId}
    (h : n.bodyLabel? = some (label, id)) :
    ∃ body, (body, n :: around) ∈ t.sites ∧ body.id = id := by
  obtain ⟨-, -, body, hbody, rfl⟩ := Node.bodyLabel?_eq_some.mp h
  exact ⟨body, Tree.mem_sites_cons.mpr ⟨hn, Node.child?_mem hbody⟩, rfl⟩

/-- A node is the body of one labeled statement at most. -/
theorem labeled_unique (ht : Tree.ofDocument d = .ok t) {m : Node} {above : List Node}
    (hn : (n, around) ∈ t.sites) (hm : (m, above) ∈ t.sites) {label label' : String} {id : NodeId}
    (hl : n.bodyLabel? = some (label, id)) (hl' : m.bodyLabel? = some (label', id)) : m = n := by
  obtain ⟨b, hb, rfl⟩ := exists_site_of_bodyLabel? hn hl
  obtain ⟨b', hb', he⟩ := exists_site_of_bodyLabel? hm hl'
  have hsite := Tree.site_unique ht hb' hb he
  exact (List.cons.inj (Prod.mk.inj hsite).2).1

/-- The labels in the table are those of the labeled statements numbered below `k`. -/
def Labels (t : Tree) (k : Nat) (p : Pass) : Prop :=
  ∀ id label, p.table.label? id = some label ↔
    ∃ n path, (n, path) ∈ t.sites ∧ n.id < k ∧ n.bodyLabel? = some (label, id)

theorem labels_begin (ht : Tree.ofDocument d = .ok t) (hn : (n, around) ∈ t.sites)
    (hw : Walking t tracking n.id around p) (h : Labels t n.id p) (parent : Option Node) :
    Labels t (n.id + 1) (p.begin tracking parent n) := by
  intro id label
  -- of the sites numbered up to the node, only the node itself is new
  have hnew : (∃ m path, (m, path) ∈ t.sites ∧ m.id < n.id + 1 ∧ m.bodyLabel? = some (label, id)) ↔
      (∃ m path, (m, path) ∈ t.sites ∧ m.id < n.id ∧ m.bodyLabel? = some (label, id)) ∨
        n.bodyLabel? = some (label, id) := by
    constructor
    · rintro ⟨m, path, hm, hlt, hl⟩
      rcases Nat.lt_or_eq_of_le (Nat.le_of_lt_succ hlt) with hlt | he
      · exact .inl ⟨m, path, hm, hlt, hl⟩
      · cases Tree.site_unique ht hm hn he
        exact .inr hl
    · rintro (⟨m, path, hm, hlt, hl⟩ | hl)
      · exact ⟨m, path, hm, Nat.lt_succ_of_lt hlt, hl⟩
      · exact ⟨n, around, hn, Nat.lt_succ_self _, hl⟩
  rw [Pass.label?_begin, hnew, ← h]
  cases hl : n.bodyLabel? with
  | none => simp [Pass.label?_enter_of_none hl]
  | some l =>
    obtain ⟨given, body⟩ := l
    obtain ⟨b, hb, rfl⟩ := exists_site_of_bodyLabel? hn hl
    have hsize : b.id < p.table.info.size := by
      rw [hw.size]
      exact Tree.id_lt_size ht hb
    rw [Pass.table_enter_of_bodyLabel? hl, ScopeTable.label?_modifyInfo_label hsize]
    split
    · next he =>
      subst he
      have hnone : p.table.label? b.id ≠ some label := by
        rw [Ne, h]
        rintro ⟨m, path, hm, hlt, hl'⟩
        obtain rfl := labeled_unique ht hn hm hl hl'
        exact Nat.lt_irrefl _ hlt
      simp [hnone]
    · next hne => simp [hne]

/-- At the end of a walk the labelled nodes are the bodies of the labeled statements, each with the
    label of its statement. -/
theorem label?_annotate (tracking : Bool) (ht : Tree.ofDocument d = .ok t) (id : NodeId)
    (label : String) :
    (annotate tracking t).label? id = some label ↔
      ∃ n path, (n, path) ∈ t.sites ∧ n.bodyLabel? = some (label, id) := by
  have hstart : Labels t 0 ⟨[], .blank t.size⟩ := by
    intro id label
    simp only [ScopeTable.label?, ScopeTable.blank, Array.getElem?_replicate]
    split <;> simp [NodeInfo.blank]
  obtain ⟨p, htable, -, -, hlabels⟩ :=
    annotate_induct (J := fun k _ p => Labels t k p) tracking ht
      (fun hn hw h => labels_begin ht hn hw h _)
      (fun _ _ _ h id label => by rw [Pass.label?_finish, h]) hstart
  rw [htable, hlabels]
  constructor
  · rintro ⟨n, path, hn, -, hl⟩
    exact ⟨n, path, hn, hl⟩
  · rintro ⟨n, path, hn, hl⟩
    exact ⟨n, path, hn, Tree.id_lt_size ht hn, hl⟩

end Scope

end ScriptSandbox
