import Mathlib.Data.List.Forall2
import ScriptSandbox.Proofs.Syntax.Numbering
import ScriptSandbox.Syntax.Rebuilding

/-
  From a document to a tree and back.

  `Extends Added d d'` says that `d'` is the document `d` with fields added behind those of visited
  nodes, and that nothing else has changed. A tree whose decoration appends to the fields of every
  node is rebuilt to such a document (`Tree.extends_toDocumentWith`). Without additions nothing has
  changed at all, so the tree of a document is rebuilt to that document
  (`Tree.toDocument_ofDocument`).

  The children of a node are numbered in the order of its plan and its fields are rebuilt in the
  order of the document. What brings them together is that a visited field refers to its nodes by
  number (`exists_numberVisit`) and that no two children have the same number.
-/

namespace ScriptSandbox

/-! ## Distinct keys -/

namespace Document

/-- No object in the document has a key twice. -/
inductive KeysDistinct : Document → Prop
  | null : KeysDistinct .null
  | boolean (b : Bool) : KeysDistinct (.boolean b)
  | number (n : DocumentNumber) : KeysDistinct (.number n)
  | string (s : String) : KeysDistinct (.string s)
  | array {items : List Document} (each : ∀ d ∈ items, KeysDistinct d) : KeysDistinct (.array items)
  | object {fields : List (String × Document)} (own : (fields.map (·.1)).Nodup)
    (each : ∀ e ∈ fields, KeysDistinct e.2) : KeysDistinct (.object fields)

attribute [simp] KeysDistinct.null KeysDistinct.boolean KeysDistinct.number KeysDistinct.string

@[simp] theorem keysDistinct_array {items : List Document} :
    (array items).KeysDistinct ↔ ∀ d ∈ items, d.KeysDistinct := by
  constructor
  · rintro ⟨⟩
    assumption
  · exact .array

@[simp] theorem keysDistinct_object {fields : List (String × Document)} :
    (object fields).KeysDistinct ↔
      (fields.map (·.1)).Nodup ∧ ∀ e ∈ fields, e.2.KeysDistinct := by
  constructor
  · rintro ⟨⟩
    exact ⟨‹_›, ‹_›⟩
  · exact fun h => .object h.1 h.2

theorem fieldValue?_of_mem {fields : List (String × Document)} (h : (fields.map (·.1)).Nodup)
    {e : String × Document} (he : e ∈ fields) : fieldValue? e.1 fields = some e.2 := by
  induction fields with
  | nil => cases he
  | cons e' fields ih =>
    obtain ⟨hnot, h⟩ := List.nodup_cons.mp h
    rcases List.mem_cons.mp he with rfl | he
    · exact if_pos rfl
    · have hne : e'.1 ≠ e.1 := fun heq => hnot (List.mem_map.mpr ⟨e, he, heq.symm⟩)
      exact (if_neg hne).trans (ih h he)

end Document

namespace Syntax

/-! ## Documents with additions -/

/-- The keys of the fields that are visited in a node with this tag. -/
def visitedKeys (tag : String) (fields : List (String × Document)) : List String :=
  (visitPlan (.ofTag tag) fields (visitFields fields)).map (·.1)

/-- The second document is the first one with fields added to its nodes. Each visited node keeps its
    own fields in their order and has the additions behind them, of which `Added` speaks together
    with the node's own keys. What is not visited is the same in both. -/
inductive Extends (Added : List String → List (String × Document) → Prop) :
    Document → Document → Prop
  | node {tag : String} {fields fields' more : List (String × Document)}
    (htype : Document.fieldValue? "type" fields = some (.string tag))
    (keys : fields'.map (·.1) = fields.map (·.1))
    (visited : ∀ e ∈ fields.zip fields', e.1.1 ∈ visitedKeys tag fields →
      Extends Added e.1.2 e.2.2)
    (kept : ∀ e ∈ fields.zip fields', e.1.1 ∉ visitedKeys tag fields → e.2.2 = e.1.2)
    (added : Added (fields.map (·.1)) more) :
    Extends Added (.object fields) (.object (fields' ++ more))
  | list {items items' : List Document} {slots : List (Option Unnumbered)}
    (hslots : visitItems items = some slots) (length : items.length = items'.length)
    (visited : ∀ e ∈ items.zip items', Extends Added e.1 e.2) :
    Extends Added (.array items) (.array items')
  | plain {d : Document} (h : visitValue d = .plain) : Extends Added d d

variable {Added : List String → List (String × Document) → Prop} {d d' : Document}

/-- The fields of a node and the same fields in a document with additions, side by side. -/
theorem forall₂_fields {visited : List String} {R : Document → Document → Prop}
    {fields fields' : List (String × Document)}
    (keys : fields'.map (·.1) = fields.map (·.1))
    (hvisited : ∀ e ∈ fields.zip fields', e.1.1 ∈ visited → R e.1.2 e.2.2)
    (hkept : ∀ e ∈ fields.zip fields', e.1.1 ∉ visited → e.2.2 = e.1.2) :
    List.Forall₂ (fun e e' => e.1 = e'.1 ∧ (e.1 ∈ visited → R e.2 e'.2) ∧
      (e.1 ∉ visited → e'.2 = e.2)) fields fields' := by
  have hkeys : List.Forall₂ (· = ·) (fields.map (·.1)) (fields'.map (·.1)) := by
    rw [List.forall₂_eq_eq_eq, keys]
  obtain ⟨hlength, hkeys⟩ := List.forall₂_iff_zip.mp
    (List.forall₂_map_right_iff.mp (List.forall₂_map_left_iff.mp hkeys))
  exact List.forall₂_iff_zip.mpr
    ⟨hlength, fun hmem => ⟨hkeys hmem, hvisited _ hmem, hkept _ hmem⟩⟩

/-- Where nothing is added, nothing has changed. -/
theorem Extends.eq (h : Extends Added d d') (hnone : ∀ keys more, Added keys more → more = []) :
    d' = d := by
  induction h with
  | @node tag fields fields' more htype keys _ kept added ih =>
    have hfields : List.Forall₂ (· = ·) fields fields' := by
      refine (forall₂_fields (R := fun v v' => v' = v) keys ih kept).imp
        fun e e' ⟨hkey, hvisited, hkept⟩ => Prod.ext hkey ?_
      by_cases hk : e.1 ∈ visitedKeys tag fields
      · exact (hvisited hk).symm
      · exact (hkept hk).symm
    rw [List.forall₂_eq_eq_eq] at hfields
    rw [hnone _ _ added, List.append_nil, hfields]
  | list hslots length _ ih =>
    have hitems := List.forall₂_iff_zip.mpr ⟨length, fun hmem => (ih _ hmem).symm⟩
    rw [List.forall₂_eq_eq_eq] at hitems
    rw [hitems]
  | plain => rfl

theorem fieldValue?_of_forall₂ {R : String → Document → Document → Prop}
    {fields fields' : List (String × Document)}
    (h : List.Forall₂ (fun e e' => e.1 = e'.1 ∧ R e.1 e.2 e'.2) fields fields')
    {key : String} {v : Document} (hv : Document.fieldValue? key fields = some v)
    (more : List (String × Document)) :
    ∃ v', Document.fieldValue? key (fields' ++ more) = some v' ∧ R key v v' := by
  induction h with
  | nil => cases hv
  | @cons e e' fields fields' he _ ih =>
    obtain ⟨hkey, hR⟩ := he
    rw [Document.fieldValue?] at hv
    rw [List.cons_append, Document.fieldValue?, ← hkey]
    split at hv
    · next heq =>
      cases hv
      exact ⟨e'.2, if_pos heq, heq ▸ hR⟩
    · next hne =>
      rw [if_neg hne]
      exact ih hv

/-- Every field of a node is still there, with its own value or with that value extended. -/
theorem Extends.get? {tag : String} {fields : List (String × Document)}
    (h : Extends Added (.object fields) d')
    (htype : Document.fieldValue? "type" fields = some (.string tag)) (key : String) {v : Document}
    (hv : Document.fieldValue? key fields = some v) :
    ∃ v', d'.get? key = some v' ∧ (key ∈ visitedKeys tag fields → Extends Added v v') ∧
      (key ∉ visitedKeys tag fields → v' = v) := by
  cases h with
  | node htype' keys visited kept _ =>
    cases htype.symm.trans htype'
    exact fieldValue?_of_forall₂
      (R := fun k v v' => (k ∈ visitedKeys tag fields → Extends Added v v') ∧
        (k ∉ visitedKeys tag fields → v' = v))
      (forall₂_fields keys visited kept) hv _
  | plain hplain =>
    rw [visitValue, htype] at hplain
    cases hplain

/-- The items of a visited list are still there, each extended. -/
theorem Extends.items {items : List Document} {slots : List (Option Unnumbered)}
    (h : Extends Added (.array items) d') (hslots : visitItems items = some slots) :
    ∃ items', d' = .array items' ∧ List.Forall₂ (Extends Added) items items' := by
  cases h with
  | list _ length visited =>
    exact ⟨_, rfl, List.forall₂_iff_zip.mpr ⟨length, fun hmem => visited _ hmem⟩⟩
  | plain hplain =>
    rw [visitValue, hslots] at hplain
    cases hplain

/-! ## Fields and their nodes -/

theorem fieldValue?_numberPlan_of_notMem (visits : List (String × Visit)) {key : String}
    {plan : List (String × Role)} (hkey : key ∉ plan.map (·.1)) (id : NodeId) :
    Node.fieldValue? key (numberPlan visits plan id).1.1 = none := by
  induction plan generalizing id with
  | nil => rfl
  | cons e plan ih =>
    obtain ⟨k, role⟩ := e
    rw [List.map_cons, List.mem_cons, not_or] at hkey
    obtain ⟨hne, hkey⟩ : k ≠ key ∧ key ∉ plan.map (·.1) := ⟨Ne.symm hkey.1, hkey.2⟩
    simp only [numberPlan]
    split
    · exact ih hkey id
    · split
      · simp only [Node.fieldValue?, if_neg hne, ih hkey]
      · exact ih hkey _

/-- The field of a visited value is what its numbering makes of it, and the nodes in it are among
    the children. -/
theorem exists_numberVisit {visits : List (String × Visit)} {key : String} {v : Visit}
    (hv : visitOf? key visits = some v) {plan : List (String × Role)}
    (hkey : key ∈ plan.map (·.1)) (id : NodeId) :
    ∃ role next,
      Node.fieldValue? key (numberPlan visits plan id).1.1 = (numberVisit role v next).1.1 ∧
      ∀ n ∈ (numberVisit role v next).1.2, n ∈ (numberPlan visits plan id).1.2 := by
  induction plan generalizing id with
  | nil => cases hkey
  | cons e plan ih =>
    obtain ⟨k, role⟩ := e
    simp only [numberPlan]
    by_cases hk : k = key
    · subst hk
      rw [hv]
      cases v with
      | node u => exact ⟨role, id, if_pos rfl, fun n hn => List.mem_append_left _ hn⟩
      | list slots => exact ⟨role, id, if_pos rfl, fun n hn => List.mem_append_left _ hn⟩
      | plain =>
        -- a plain value leaves no field, here and where the plan may name its key again
        by_cases hagain : k ∈ plan.map (·.1)
        · exact ih hagain id
        · exact ⟨role, id, fieldValue?_numberPlan_of_notMem visits hagain id, by simp [numberVisit]⟩
    · have hkey : key ∈ plan.map (·.1) := (List.mem_cons.mp hkey).resolve_left (Ne.symm hk)
      split
      · exact ih hkey id
      · next v' _ =>
        obtain ⟨role', next, hfield, hnodes⟩ := ih hkey (numberVisit role v' id).2
        refine ⟨role', next, ?_, fun n hn => ?_⟩
        · split
          · exact (if_neg hk).trans hfield
          · exact hfield
        · have hmem := List.mem_append_right (numberVisit role v' id).1.2 (hnodes n hn)
          split <;> exact hmem

/-! ## Rebuilding -/

theorem visitValue_object (fields : List (String × Document)) :
    (∃ tag, Document.fieldValue? "type" fields = some (.string tag) ∧
      visitValue (.object fields) =
        .node (numberNode (.ofTag tag) fields (visitFields fields))) ∨
    visitValue (.object fields) = .plain := by
  simp only [visitValue]
  split
  · next tag htype => exact .inl ⟨tag, htype, rfl⟩
  · exact .inr rfl

variable {decorate : NodeId → List (String × Document) → List (String × Document)}

/-- The decoration appends to the fields of a node, in agreement with `Added`. -/
def Appends (decorate : NodeId → List (String × Document) → List (String × Document))
    (Added : List String → List (String × Document) → Prop) (n : Node) : Prop :=
  ∀ fields : List (String × Document), fields.map (·.1) = n.fields.map (·.1) →
    ∃ more, decorate n.id fields = fields ++ more ∧ Added (n.fields.map (·.1)) more

theorem Node.rebuildWith_eq (n : Node) :
    n.rebuildWith decorate =
      .object (decorate n.id
        (n.fields.map fun e => (e.1, e.2.rebuild (rebuildAllWith decorate n.children)))) := by
  cases n
  rfl

theorem builtChild_eq (ns : List Node) (id : NodeId) :
    builtChild (Node.rebuildAllWith decorate ns) id =
      ((ns.find? (·.id == id)).map (·.rebuildWith decorate)).getD .null := by
  induction ns with
  | nil => rfl
  | cons c ns ih =>
    rw [builtChild] at ih ⊢
    rw [Node.rebuildAllWith]
    by_cases hc : c.id = id
    · rw [List.find?_cons_of_pos (by simpa using hc), List.find?_cons_of_pos (by simpa using hc)]
      rfl
    · rw [List.find?_cons_of_neg (by simpa using hc), List.find?_cons_of_neg (by simpa using hc),
        ih]

theorem builtChild_of_mem {ns : List Node} (hns : (ns.map (·.id)).Nodup) {c : Node} (hc : c ∈ ns) :
    builtChild (Node.rebuildAllWith decorate ns) c.id = c.rebuildWith decorate := by
  rw [builtChild_eq, find?_id_of_mem hns hc]
  rfl

/-- The numbered nodes are rebuilt under their numbers, and each of them and of the nodes below
    them is decorated by appending. -/
def Rebuilt (decorate : NodeId → List (String × Document) → List (String × Document))
    (Added : List String → List (String × Document) → Prop) (built : List (NodeId × Document))
    (around : List Node) (nodes : List Node) : Prop :=
  ∀ n ∈ nodes, builtChild built n.id = n.rebuildWith decorate ∧
    ∀ s ∈ n.sites around, Appends decorate Added s.1

/-- What a visited value is rebuilt to, wherever its nodes are numbered and rebuilt. -/
def RebuildsTo (decorate : NodeId → List (String × Document) → List (String × Document))
    (Added : List String → List (String × Document) → Prop) (d : Document) : Prop :=
  ∀ role id built around,
    Rebuilt decorate Added built around (numberVisit role (visitValue d) id).1.2 →
    Extends Added d (((numberVisit role (visitValue d) id).1.1.getD (.data d)).rebuild built)

/-- The items of a visited list are rebuilt one by one, holes included. -/
theorem extends_items {items : List Document} (hitems : ∀ d ∈ items, RebuildsTo decorate Added d)
    {slots : List (Option Unnumbered)} (hslots : visitItems items = some slots) {role : Role}
    {built : List (NodeId × Document)} {around : List Node} {id : NodeId}
    (hbuilt : Rebuilt decorate Added built around (numberSlots role slots id).1.2) :
    ∃ items', (Field.list (numberSlots role slots id).1.1).rebuild built = .array items' ∧
      List.Forall₂ (Extends Added) items items' := by
  induction items generalizing slots id with
  | nil =>
    cases hslots
    exact ⟨[], rfl, .nil⟩
  | cons item items ih =>
    rw [List.forall_mem_cons] at hitems
    simp only [visitItems] at hslots
    split at hslots
    · obtain ⟨slots, hslots', rfl⟩ := Option.map_eq_some_iff.mp hslots
      rw [numberSlots] at hbuilt ⊢
      obtain ⟨items', hrebuild, hall⟩ := ih hitems.2 hslots' hbuilt
      obtain rfl := Document.array.inj hrebuild
      exact ⟨_, rfl, .cons (.plain rfl) hall⟩
    · next u hvisit =>
      obtain ⟨slots, hslots', rfl⟩ := Option.map_eq_some_iff.mp hslots
      obtain ⟨hfirst, hrest⟩ := List.forall_mem_cons.mp hbuilt
      obtain ⟨items', hrebuild, hall⟩ := ih hitems.2 hslots' hrest
      obtain rfl := Document.array.inj hrebuild
      have hitem := hitems.1 role id built around
      rw [hvisit] at hitem
      exact ⟨_, rfl, .cons (hitem (List.forall_mem_singleton.mpr hfirst)) hall⟩
    · cases hslots

theorem rebuilt_children {n : Node} {around : List Node} (hns : (n.children.map (·.id)).Nodup)
    (happends : ∀ s ∈ n.sites around, Appends decorate Added s.1) :
    Rebuilt decorate Added (Node.rebuildAllWith decorate n.children) (n :: around) n.children :=
  fun c hc => ⟨builtChild_of_mem hns hc,
    fun s hs => happends s (Node.mem_sites.mpr (.inr ⟨c, hc, hs⟩))⟩

/-- The fields of a numbered node, with the documents of its children in place. -/
def rebuiltFields (visited : List (String × Field)) (built : List (NodeId × Document))
    (fields : List (String × Document)) : List (String × Document) :=
  fields.map fun e => (e.1, ((Node.fieldValue? e.1 visited).getD (.data e.2)).rebuild built)

@[simp] theorem keys_rebuiltFields (visited : List (String × Field))
    (built : List (NodeId × Document)) (fields : List (String × Document)) :
    (rebuiltFields visited built fields).map (·.1) = fields.map (·.1) := by
  simp [rebuiltFields]

theorem mem_zip_rebuiltFields {visited : List (String × Field)} {built : List (NodeId × Document)}
    {fields : List (String × Document)} {p : (String × Document) × (String × Document)}
    (hp : p ∈ fields.zip (rebuiltFields visited built fields)) :
    p.1 ∈ fields ∧
      p.2.2 = ((Node.fieldValue? p.1.1 visited).getD (.data p.1.2)).rebuild built := by
  rw [rebuiltFields, ← List.map_prod_left_eq_zip] at hp
  obtain ⟨e, he, rfl⟩ := List.mem_map.mp hp
  exact ⟨he, rfl⟩

section

variable {kind : Kind} {fields : List (String × Document)} {visits : List (String × Visit)}
  {role : Role} {id : NodeId}

theorem keys_numberNode :
    (numberNode kind fields visits role id).1.fields.map (·.1) = fields.map (·.1) := by
  simp [numberNode]

theorem rebuildWith_numberNode :
    (numberNode kind fields visits role id).1.rebuildWith decorate =
      .object (decorate (numberNode kind fields visits role id).1.id
        (rebuiltFields (numberPlan visits (visitPlan kind fields visits) (id + 1)).1.1
          (Node.rebuildAllWith decorate (numberNode kind fields visits role id).1.children)
          fields)) := by
  rw [Node.rebuildWith_eq]
  simp only [numberNode, List.map_map]
  rfl

end

/-- A visited field of a node is rebuilt to its value with additions. -/
theorem extends_visited {fields : List (String × Document)} (hkeys : (fields.map (·.1)).Nodup)
    {e : String × Document} (he : e ∈ fields) (hrebuilds : RebuildsTo decorate Added e.2)
    {plan : List (String × Role)} (hplan : e.1 ∈ plan.map (·.1)) {next : NodeId}
    {built : List (NodeId × Document)} {around : List Node}
    (hbuilt : Rebuilt decorate Added built around
      (numberPlan (visitFields fields) plan next).1.2) :
    Extends Added e.2 (((Node.fieldValue? e.1
      (numberPlan (visitFields fields) plan next).1.1).getD (.data e.2)).rebuild built) := by
  have hvisit : visitOf? e.1 (visitFields fields) = some (visitValue e.2) := by
    rw [visitOf?_visitFields, Document.fieldValue?_of_mem hkeys he, Option.map_some]
  obtain ⟨role, next', hfield, hnodes⟩ := exists_numberVisit hvisit hplan next
  rw [hfield]
  exact hrebuilds role next' built around fun c hc => hbuilt c (hnodes c hc)

/-- A numbered node is rebuilt to its object with the additions of every node in it. -/
theorem extends_numberNode {tag : String} {fields : List (String × Document)}
    (htype : Document.fieldValue? "type" fields = some (.string tag))
    (hkeys : (fields.map (·.1)).Nodup) (hfields : ∀ e ∈ fields, RebuildsTo decorate Added e.2)
    (role : Role) (id : NodeId) {around : List Node}
    (happends : ∀ s ∈ (numberNode (.ofTag tag) fields (visitFields fields) role id).1.sites around,
      Appends decorate Added s.1) :
    Extends Added (.object fields)
      ((numberNode (.ofTag tag) fields (visitFields fields) role id).1.rebuildWith decorate) := by
  have hchildren := rebuilt_children
    (numberPlan_sound (visitFields_sound carries_bodyListed fields fun _ _ => trivial)
      (visitPlan (.ofTag tag) fields (visitFields fields)) (id + 1)).1.nodup happends
  obtain ⟨more, hmore, hadded⟩ := happends _ (Node.self_mem_sites _ around) _
    ((keys_rebuiltFields _ _ fields).trans keys_numberNode.symm)
  rw [keys_numberNode] at hadded
  rw [rebuildWith_numberNode, hmore]
  refine .node htype (keys_rebuiltFields ..) ?visited ?kept hadded
  case visited =>
    intro p hp hkey
    obtain ⟨he, hvalue⟩ := mem_zip_rebuiltFields hp
    rw [hvalue]
    exact extends_visited hkeys he (hfields p.1 he) hkey hchildren
  case kept =>
    intro p hp hkey
    rw [(mem_zip_rebuiltFields hp).2, fieldValue?_numberPlan_of_notMem _ hkey]
    rfl

theorem rebuildsTo_of_plain (h : visitValue d = .plain) : RebuildsTo decorate Added d := by
  intro role id built around _
  rw [h]
  exact .plain h

theorem rebuildsTo_of_node {u : Unnumbered} (hvisit : visitValue d = .node u)
    (h : ∀ role id around, (∀ s ∈ (u role id).1.sites around, Appends decorate Added s.1) →
      Extends Added d ((u role id).1.rebuildWith decorate)) : RebuildsTo decorate Added d := by
  intro role id built around hbuilt
  rw [hvisit] at hbuilt ⊢
  obtain ⟨hchild, happends⟩ := List.forall_mem_singleton.mp hbuilt
  have hextends := h role id around happends
  rw [← hchild] at hextends
  exact hextends

/-- With distinct keys, every value is rebuilt to itself with the additions of the nodes in it. -/
theorem rebuildsTo (hkeys : d.KeysDistinct) : RebuildsTo decorate Added d := by
  induction hkeys with
  | null => exact rebuildsTo_of_plain rfl
  | boolean => exact rebuildsTo_of_plain rfl
  | number => exact rebuildsTo_of_plain rfl
  | string => exact rebuildsTo_of_plain rfl
  | @array items _ ih =>
    cases hslots : visitItems items with
    | none => exact rebuildsTo_of_plain (by simp [visitValue, hslots])
    | some slots =>
      have hvisit : visitValue (.array items) = .list slots := by simp [visitValue, hslots]
      intro role id built around hbuilt
      rw [hvisit] at hbuilt ⊢
      obtain ⟨items', hrebuild, hall⟩ := extends_items ih hslots hbuilt
      obtain ⟨hlength, hall⟩ := List.forall₂_iff_zip.mp hall
      simp only [numberVisit, Option.getD_some, hrebuild]
      exact .list hslots hlength fun _ he => hall he
  | @object fields hown _ ih =>
    rcases visitValue_object fields with ⟨tag, htype, hvisit⟩ | hplain
    · exact rebuildsTo_of_node hvisit fun role id around happends =>
        extends_numberNode htype hown ih role id happends
    · exact rebuildsTo_of_plain hplain

/-! ## Trees -/

theorem Tree.exists_ofDocument {tag : String} (htype : d.getString? "type" = some tag) :
    ∃ t, Tree.ofDocument d = .ok t := by
  cases d with
  | object fields =>
    obtain ⟨v, hv, htag⟩ := Option.bind_eq_some_iff.mp htype
    cases v with
    | string s =>
      have hv : Document.fieldValue? "type" fields = some (.string s) := hv
      exact ⟨_, by rw [Tree.ofDocument, visitValue, hv]⟩
    | _ => cases htag
  | _ => cases htype

/-- Where a decoration appends to the fields of every node, the tree of a document with distinct
    keys is rebuilt to the document with these additions. -/
theorem Tree.extends_toDocumentWith {t : Tree} (ht : Tree.ofDocument d = .ok t)
    (hkeys : d.KeysDistinct) (happends : ∀ s ∈ t.sites, Appends decorate Added s.1) :
    Extends Added d (t.toDocumentWith decorate) := by
  have hroot : RebuildsTo decorate Added d := rebuildsTo hkeys
  unfold Tree.ofDocument at ht
  split at ht
  · next u hvisit =>
    cases ht
    have hchild : builtChild (Node.rebuildAllWith decorate [(u .reference 0).1])
        (u .reference 0).1.id = (u .reference 0).1.rebuildWith decorate :=
      builtChild_of_mem (by simp) (List.mem_singleton_self _)
    have hextends := hroot .reference 0 (Node.rebuildAllWith decorate [(u .reference 0).1]) []
    rw [hvisit] at hextends
    rw [Tree.toDocumentWith, ← hchild]
    exact hextends (List.forall_mem_singleton.mpr ⟨hchild, happends⟩)
  · cases ht

/-- With a node at the root and distinct keys, the tree of a document is rebuilt to that document:
    whatever its nodes are and however malformed their fields, no value and no order is lost. -/
theorem Tree.toDocument_ofDocument {tag : String} (htype : d.getString? "type" = some tag)
    (hkeys : d.KeysDistinct) : ∃ t, Tree.ofDocument d = .ok t ∧ t.toDocument = d := by
  obtain ⟨t, ht⟩ := Tree.exists_ofDocument htype
  have happends : ∀ s ∈ t.sites, Appends (fun _ fields => fields) (fun _ more => more = []) s.1 :=
    fun _ _ fields _ => ⟨[], (List.append_nil fields).symm, rfl⟩
  exact ⟨t, ht, (Tree.extends_toDocumentWith ht hkeys happends).eq fun _ _ h => h⟩

/-- `f(, ?)` with the type written last, a node of an unknown kind and fields of no use. -/
def untidyDocument : Document :=
  .object [
    ("body", .array [.object [
      ("type", .string "CallExpression"),
      ("callee", .object [("name", .string "f"), ("type", .string "Identifier")]),
      ("arguments", .array [.null, .object [
        ("type", .string "Mystery"),
        ("parts", .array [.number (.integer 3), .object [("type", .string "Literal")]]),
        ("type of type", .object [("type", .boolean true)])]])]]),
    ("label", .object [("type", .string "Identifier")]),
    ("type", .string "Program")]

theorem toDocument_untidyDocument :
    untidyDocument.KeysDistinct ∧
      ∃ t, Tree.ofDocument untidyDocument = .ok t ∧ t.toDocument = untidyDocument := by
  have htype : untidyDocument.getString? "type" = some "Program" := rfl
  have hkeys : untidyDocument.KeysDistinct := by simp [untidyDocument]
  exact ⟨hkeys, Tree.toDocument_ofDocument htype hkeys⟩

end Syntax

end ScriptSandbox
