import ScriptSandbox.Proofs.Syntax.Relowering

/-
  What a node says of its document.

  The document of a node is its object without numbers, with the documents of its children in their
  places (`Node.document`). A field of it is a field of the node rebuilt (`get?_document`), so what
  is neither null nor composite is read off the node as it is off its document
  (`bind_get?_document`). What else may be read off the node rests on how it was numbered
  (`Node.Faithful`): its kind is that of its tag, what its kind ignores is kept as it is, and any
  other field is kept as it is only when it is no node.
-/

namespace ScriptSandbox

/-! ## Reading a document -/

namespace Document

/-- Whether a document is a node: an object with a tag. -/
def isNode (d : Document) : Bool := (d.getString? "type").isSome

def boolean? : Document → Option Bool
  | .boolean b => some b
  | _ => none

/-- Whether an object has `true` at a key. -/
def isTrueAt (d : Document) (key : String) : Bool := ((d.get? key).bind boolean?).getD false

end Document

namespace Syntax

variable {d : Document} {items : List Document} {fields : List (String × Document)} {key : String}

theorem exists_visitValue_node_iff : (∃ u, visitValue d = .node u) ↔ d.isNode = true := by
  cases d with
  | object fields =>
    rw [Document.isNode, Document.getString?, Document.get?, visitValue]
    split
    · next tag htype => simp [htype, Document.string?]
    · next hnone =>
      refine iff_of_false (by simp) fun h => ?_
      obtain ⟨tag, htag⟩ := Option.isSome_iff_exists.mp h
      obtain ⟨v, hv, hstring⟩ := Option.bind_eq_some_iff.mp htag
      cases v with
      | string s => exact hnone s hv
      | _ => cases hstring
  | array items =>
    rw [visitValue]
    cases visitItems items <;> simp [Document.isNode, Document.getString?, Document.get?]
  | _ => simp [visitValue, Document.isNode, Document.getString?, Document.get?]

/-- A list is visited when each of its items is a node or null. -/
theorem isSome_visitItems (items : List Document) :
    (visitItems items).isSome = items.all fun e => e.isNull || e.isNode := by
  induction items with
  | nil => rfl
  | cons item items ih =>
    rw [List.all_cons, ← ih]
    simp only [visitItems]
    split
    · simp [Document.isNull]
    · next u hnull hvisit =>
      simp [exists_visitValue_node_iff.mp ⟨u, hvisit⟩]
    · next item _ _ hnull hnode =>
      have hnull : item.isNull = false := by
        cases item with
        | null => exact absurd rfl hnull
        | _ => rfl
      have hnode : item.isNode = false := by
        rw [Bool.eq_false_iff, Ne, ← exists_visitValue_node_iff]
        rintro ⟨u, hu⟩
        exact hnode u hu
      simp [hnull, hnode]

theorem all_isNode_eq_false_of_plain (h : visitValue (.array items) = .plain) :
    (items.all fun e => e.isNull || e.isNode) = false := by
  rw [← isSome_visitItems]
  rw [visitValue] at h
  cases hslots : visitItems items with
  | none => rfl
  | some slots =>
    rw [hslots] at h
    cases h

/-! ## Documents of nodes -/

namespace Node

/-- The object of a node with the documents of its children in their places. -/
def document (n : Node) : Document := n.rebuildWith fun _ fields => fields

/-- The documents of the children of a node, by number. -/
def built (n : Node) : List (NodeId × Document) :=
  rebuildAllWith (fun _ fields => fields) n.children

theorem builtChild_built (n : Node) (id : NodeId) :
    builtChild n.built id = ((n.childAt? id).map document).getD .null :=
  builtChild_eq n.children id

/-- A field of the document of a node is its own field with the nodes in it rebuilt. -/
theorem get?_document (n : Node) (key : String) :
    n.document.get? key = (n.field? key).map (·.rebuild n.built) := by
  rw [document, rebuildWith_eq]
  show Document.fieldValue? key _ = (fieldValue? key n.fields).map _
  induction n.fields with
  | nil => rfl
  | cons e fields ih =>
    rw [List.map_cons, Document.fieldValue?, fieldValue?, ih]
    split <;> rfl

variable {n c : Node}

theorem get?_document_of_child? (h : n.child? key = some c) :
    n.document.get? key = some c.document := by
  unfold child? at h
  split at h
  · next id hfield =>
    rw [get?_document, hfield, Option.map_some, Field.rebuild, builtChild_built, h]
    rfl
  · cases h

theorem get?_document_of_list? {slots : List (Option NodeId)} (h : n.list? key = some slots) :
    n.document.get? key = some (.array (slots.map fun slot =>
      ((slot.bind n.childAt?).map document).getD .null)) := by
  unfold list? at h
  split at h
  · next slots' hfield =>
    cases h
    rw [get?_document, hfield, Option.map_some, Field.rebuild]
    refine congrArg (some <| Document.array ·) (List.map_congr_left fun slot _ => ?_)
    cases slot with
    | none => rfl
    | some id => exact builtChild_built n id
  · cases h

/-- The document in a visited field of one node is an object, unless there is no such child. -/
theorem exists_builtChild_built (n : Node) (id : NodeId) :
    builtChild n.built id = .null ∨ ∃ fields, builtChild n.built id = .object fields := by
  rw [builtChild_built]
  cases n.childAt? id with
  | none => exact .inl rfl
  | some c => exact .inr ⟨_, c.rebuildWith_eq⟩

/-- What is read of values that are neither null nor composite is the same of a node and of its
    document: a field that is visited never becomes one. -/
theorem bind_get?_document {α : Type} {f : Document → Option α} (hnull : f .null = none)
    (harray : ∀ items, f (.array items) = none) (hobject : ∀ fields, f (.object fields) = none)
    (n : Node) (key : String) : (n.document.get? key).bind f = (n.data? key).bind f := by
  rw [get?_document, data?]
  cases n.field? key with
  | none => rfl
  | some field =>
    cases field with
    | data v => rfl
    | list slots => exact harray _
    | node id =>
      show f (builtChild n.built id) = none
      rcases n.exists_builtChild_built id with h | ⟨fields, h⟩
      · rw [h, hnull]
      · rw [h, hobject]

theorem getString?_document (n : Node) (key : String) :
    n.document.getString? key = n.stringData? key :=
  bind_get?_document rfl (fun _ => rfl) (fun _ => rfl) n key

theorem isTrueAt_document (n : Node) (key : String) :
    n.document.isTrueAt key = n.isTrue key := by
  rw [Document.isTrueAt, bind_get?_document rfl (fun _ => rfl) (fun _ => rfl), isTrue]
  cases n.data? key with
  | none => rfl
  | some v => cases v <;> rfl

/-! ## Numbered nodes -/

/-- What a node still says of the object that it was numbered from. Its kind is that of its tag, and
    what its kind ignores is kept as it is. A field that its kind looks at is kept as it is only
    when it is no node; in the order of a kind that has one, only when there is nothing to visit. -/
structure Faithful (n : Node) : Prop where
  tagged : ∃ tag, n.stringData? "type" = some tag ∧ n.kind = .ofTag tag
  kept : ∀ key, n.kind.Ignores key → ∀ f, n.field? key = some f → ∃ v, f = .data v
  visited : ∀ key v, ¬ n.kind.Ignores key → n.field? key = some (.data v) → v.isNode = false
  planned : ∀ plan, fixedPlan? n.kind = some plan → ∀ key ∈ plan.map (·.1),
    ∀ v, n.field? key = some (.data v) → visitValue v = .plain

end Node

/-- The field of a numbered node is what its value was numbered to, if it was. -/
theorem field?_numberNode (kind : Kind) (fields : List (String × Document))
    (visits : List (String × Visit)) (role : Role) (id : NodeId) (key : String) :
    (numberNode kind fields visits role id).1.field? key =
      (Document.fieldValue? key fields).map fun v =>
        (Node.fieldValue? key (numberPlan visits (visitPlan kind fields visits) (id + 1)).1.1).getD
          (.data v) :=
  fieldValue?_map key fields _

variable {kind : Kind} {v : Document}

/-- What has no place in the plan is kept. -/
theorem field?_numberNode_of_notMem
    (hkey : key ∉ (visitPlan kind fields (visitFields fields)).map (·.1)) (role : Role)
    (id : NodeId) :
    (numberNode kind fields (visitFields fields) role id).1.field? key =
      (Document.fieldValue? key fields).map .data := by
  rw [field?_numberNode, fieldValue?_numberPlan_of_notMem _ hkey]
  rfl

/-- What has a place in the plan is kept when there is nothing to visit. -/
theorem exists_field?_numberNode_of_mem (hv : Document.fieldValue? key fields = some v)
    (hkey : key ∈ (visitPlan kind fields (visitFields fields)).map (·.1)) (role : Role)
    (id : NodeId) :
    ∃ role' next, (numberNode kind fields (visitFields fields) role id).1.field? key =
      some ((numberVisit role' (visitValue v) next).1.1.getD (.data v)) := by
  have hvisit : visitOf? key (visitFields fields) = some (visitValue v) := by
    rw [visitOf?_visitFields, hv, Option.map_some]
  obtain ⟨role', next, hfield, -⟩ := exists_numberVisit hvisit hkey (id + 1)
  exact ⟨role', next, by rw [field?_numberNode, hv, Option.map_some, hfield]⟩

/-- Where something visited was kept as it is, there is nothing to visit in it. -/
theorem eq_plain_of_getD_eq_data {role : Role} {id : NodeId} {w : Document}
    (h : (numberVisit role (visitValue v) id).1.1.getD (.data v) = .data w) :
    w = v ∧ visitValue w = .plain := by
  cases hvisit : visitValue v with
  | plain =>
    rw [hvisit] at h
    cases h
    exact ⟨rfl, hvisit⟩
  | node u =>
    rw [hvisit] at h
    cases h
  | list slots =>
    rw [hvisit] at h
    cases h

theorem isNode_eq_false_of_plain (h : visitValue v = .plain) : v.isNode = false := by
  rw [Bool.eq_false_iff, Ne, ← exists_visitValue_node_iff, h]
  simp

/-- A node at a key that its kind looks at has a place in the plan. -/
theorem isNode_eq_false_of_notMem (hkind : ¬ kind.Ignores key) (hkey : key ≠ "type")
    (hv : Document.fieldValue? key fields = some v)
    (hplan : key ∉ (visitPlan kind fields (visitFields fields)).map (·.1)) : v.isNode = false := by
  cases hfixed : fixedPlan? kind with
  | some plan =>
    rw [visitPlan_of_fixed hfixed] at hplan
    exact absurd ⟨hkey, by rw [hfixed]; exact hplan⟩ hkind
  | none =>
    have hskipped : key ∉ skippedKeys := fun h => hkind ⟨hkey, by rw [hfixed]; exact h⟩
    rw [visitPlan_of_generic hfixed] at hplan
    rw [Bool.eq_false_iff, Ne, ← exists_visitValue_node_iff]
    rintro ⟨u, hu⟩
    have hvisited : visitedAnyway key (visitValue v) = true := by
      simp [hu, visitedAnyway, hskipped]
    refine hplan (List.mem_map.mpr ⟨(key, genericRole fields key), ?_, rfl⟩)
    exact List.mem_filterMap.mpr ⟨(key, v), mem_of_fieldValue? hv, if_pos hvisited⟩

/-- What is kept of a field of a numbered node is its value, and it has been visited in vain or has
    no place in the plan. -/
theorem data_of_field?_numberNode {role : Role} {id : NodeId} {w : Document}
    (h : (numberNode kind fields (visitFields fields) role id).1.field? key = some (.data w)) :
    Document.fieldValue? key fields = some w ∧ (visitValue w = .plain ∨
      key ∉ (visitPlan kind fields (visitFields fields)).map (·.1)) := by
  by_cases hkey : key ∈ (visitPlan kind fields (visitFields fields)).map (·.1)
  · cases hv : Document.fieldValue? key fields with
    | none =>
      rw [field?_numberNode, hv] at h
      cases h
    | some v =>
      obtain ⟨role', next, hfield⟩ := exists_field?_numberNode_of_mem hv hkey role id
      obtain ⟨rfl, hplain⟩ := eq_plain_of_getD_eq_data (Option.some_inj.mp (hfield.symm.trans h))
      exact ⟨rfl, .inl hplain⟩
  · rw [field?_numberNode_of_notMem hkey] at h
    obtain ⟨v, hv, hdata⟩ := Option.map_eq_some_iff.mp h
    cases hdata
    exact ⟨hv, .inr hkey⟩

theorem field?_numberNode_of_plain (hv : Document.fieldValue? key fields = some v)
    (hplain : visitValue v = .plain) (role : Role) (id : NodeId) :
    (numberNode kind fields (visitFields fields) role id).1.field? key = some (.data v) := by
  by_cases hkey : key ∈ (visitPlan kind fields (visitFields fields)).map (·.1)
  · obtain ⟨role', next, hfield⟩ := exists_field?_numberNode_of_mem hv hkey role id
    rw [hfield, hplain]
    rfl
  · rw [field?_numberNode_of_notMem hkey, hv]
    rfl

theorem faithful_numberNode {tag : String}
    (htype : Document.fieldValue? "type" fields = some (.string tag)) (role : Role) (id : NodeId) :
    (numberNode (.ofTag tag) fields (visitFields fields) role id).1.Faithful where
  tagged := by
    refine ⟨tag, ?_, rfl⟩
    rw [Node.stringData?, Node.data?, field?_numberNode_of_plain htype rfl]
    rfl
  kept key hkey f hf := by
    have hkey : (Kind.ofTag tag).Ignores key := hkey
    rw [field?_numberNode_of_notMem (hkey.notMem_visitPlan fields)] at hf
    obtain ⟨v, -, rfl⟩ := Option.map_eq_some_iff.mp hf
    exact ⟨v, rfl⟩
  visited key v hkey hfield := by
    obtain ⟨hv, hplain | hplan⟩ := data_of_field?_numberNode hfield
    · exact isNode_eq_false_of_plain hplain
    · by_cases he : key = "type"
      · subst he
        cases htype.symm.trans hv
        rfl
      · exact isNode_eq_false_of_notMem hkey he hv hplan
  planned plan hplan key hkey v hfield := by
    obtain ⟨-, hplain | hnot⟩ := data_of_field?_numberNode hfield
    · exact hplain
    · have hplan : fixedPlan? (.ofTag tag) = some plan := hplan
      rw [visitPlan_of_fixed hplan] at hnot
      exact absurd hkey hnot

theorem carries_faithful : Carries (fun _ => True) Node.Faithful where
  items _ _ _ _ := trivial
  fields _ _ _ _ := trivial
  node _ _ htype _ _ role id := faithful_numberNode htype role id

theorem Tree.faithful {t : Tree} (ht : Tree.ofDocument d = .ok t) {n : Node} {path : List Node}
    (hn : (n, path) ∈ t.sites) : n.Faithful :=
  (sound_of_carries carries_faithful ht trivial).2 _ hn

namespace Node.Faithful

variable {n : Node}

theorem kind_document (h : n.Faithful) :
    (n.document.getString? "type").map Kind.ofTag = some n.kind := by
  obtain ⟨tag, htype, hkind⟩ := h.tagged
  rw [getString?_document, htype, Option.map_some, hkind]

theorem isNode_document (h : n.Faithful) : n.document.isNode = true := by
  obtain ⟨tag, htype, -⟩ := h.tagged
  rw [Document.isNode, getString?_document, htype]
  rfl

theorem get?_document (h : n.Faithful) (hkey : n.kind.Ignores key) :
    n.document.get? key = n.data? key := by
  rw [Node.get?_document, data?]
  cases hfield : n.field? key with
  | none => rfl
  | some f =>
    obtain ⟨v, rfl⟩ := h.kept key hkey f hfield
    rfl

end Node.Faithful

end Syntax

end ScriptSandbox
