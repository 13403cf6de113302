import ScriptSandbox.Proofs.Scope.Binding
import ScriptSandbox.Proofs.Scope.Pattern
import ScriptSandbox.Proofs.Syntax.Reading

/-
  Labels of expressions, by recursion.

  `sourceLabel?` reads the label of an expression off its document, from the labels of its parts
  (`composedLabel?`). A walk has no such recursion: it writes the labels of the nodes into a table,
  some on the way in and the others on the way out, and reads those of the parts back from there. On
  the way out of a node the walk of everything below it is done, and what it wrote is not written
  again (`Named`), so what is read back are the labels of the parts, and the label of the node is
  composed of them (`composedLabel?_document`).
-/

namespace ScriptSandbox.Scope

open Syntax Document

/-! ## The label of a document -/

/-- The label of a literal as it stands in a document. -/
def literalText (d : Document) : String :=
  match (d.get? "regex").filter Document.isObject with
  | some regex =>
    let part (key : String) := (regex.getString? key).getD ""
    "/" ++ part "pattern" ++ "/" ++ part "flags"
  | none =>
    match d.get? "value", d.getString? "raw" with
    | none, _ => "undefined"
    | some _, some raw => raw
    | some value, none => value.render

/-- The label of a node, composed of the labels of its parts: of the node at each key, and of the
    elements of an array. -/
def composedLabel? (d : Document) (part : String → Option String) (elements : List String) :
    Option String :=
  match (d.getString? "type").map Kind.ofTag with
  | some .identifier => d.getString? "name"
  | some .literal => some (literalText d)
  | some .thisExpression => some "this"
  | some .binaryExpression | some .logicalExpression =>
    some ((part "left").getD "??" ++ " " ++ (d.getString? "operator").getD "?" ++ " " ++
      (part "right").getD "??")
  | some .memberExpression =>
    let base := (part "object").getD "??"
    let property := (part "property").getD "(intermediate value)"
    some (if d.isTrueAt "computed" then base ++ "[" ++ property ++ "]"
      else base ++ "." ++ property)
  | some .callExpression => some ((part "callee").getD "??" ++ "(...)")
  | some .newExpression => some ("new " ++ (part "callee").getD "??" ++ "(...)")
  | some .arrayExpression => some ("[" ++ ",".intercalate elements ++ "]")
  | some .functionDeclaration => ((d.get? "id").bind (·.getString? "name")).map functionLabel
  | _ => none

/-- The elements of an array expression, holes included. A list with anything else in it counts as
    empty. -/
def elementsOf (d : Document) : List Document :=
  if (d.itemsAt "elements").all fun e => e.isNull || e.isNode then d.itemsAt "elements" else []

theorem mem_itemsAt_of_mem_elementsOf {d e : Document} (h : e ∈ elementsOf d) :
    e ∈ d.itemsAt "elements" := by
  unfold elementsOf at h
  split at h
  · exact h
  · cases h

/-- The label of a document, by recursion: that of an expression, or of a function declaration with
    a name. -/
def sourceLabel? (d : Document) : Option String :=
  composedLabel? d (fun key => (d.get? key).attach.bind fun q => sourceLabel? q.1)
    ((elementsOf d).attach.map fun e => (sourceLabel? e.1).getD "")
termination_by d.weight
decreasing_by
  · exact weight_lt_of_get? q.2
  · exact weight_lt_of_mem_itemsAt (mem_itemsAt_of_mem_elementsOf e.2)

theorem sourceLabel?_eq (d : Document) :
    sourceLabel? d = composedLabel? d (fun key => (d.get? key).bind sourceLabel?)
      ((elementsOf d).map fun e => (sourceLabel? e).getD "") := by
  rw [sourceLabel?]
  simp

/-- What is no node has no label. -/
theorem sourceLabel?_of_not_isNode {d : Document} (h : d.isNode = false) :
    sourceLabel? d = none := by
  have htype : d.getString? "type" = none := by simpa [Document.isNode] using h
  rw [sourceLabel?_eq, composedLabel?, htype]
  rfl

/-- The keys of the parts that the label of a node of this kind is composed of. -/
def labelParts : Kind → List String
  | .binaryExpression | .logicalExpression => ["left", "right"]
  | .memberExpression => ["object", "property"]
  | .callExpression | .newExpression => ["callee"]
  | _ => []

theorem not_ignores_of_mem_labelParts {k : Kind} {key : String} (h : key ∈ labelParts k) :
    ¬ k.Ignores key := by
  cases k <;> simp [labelParts] at h <;> rcases h with rfl | rfl <;>
    simp [Kind.Ignores, fixedPlan?, skippedKeys]

theorem composedLabel?_congr {d : Document} {k : Kind}
    (hk : (d.getString? "type").map Kind.ofTag = some k) {part part' : String → Option String}
    {elements elements' : List String} (hpart : ∀ key ∈ labelParts k, part key = part' key)
    (helements : k = .arrayExpression → elements = elements') :
    composedLabel? d part elements = composedLabel? d part' elements' := by
  unfold composedLabel?
  rw [hk]
  cases k with
  | binaryExpression => rw [hpart "left" (by decide), hpart "right" (by decide)]
  | logicalExpression => rw [hpart "left" (by decide), hpart "right" (by decide)]
  | memberExpression => rw [hpart "object" (by decide), hpart "property" (by decide)]
  | callExpression => rw [hpart "callee" (by decide)]
  | newExpression => rw [hpart "callee" (by decide)]
  | arrayExpression => rw [helements rfl]
  | _ => rfl

/-! ## The label of a node -/

/-- The label that a node gets on the way in. -/
def entryLabel? (n : Node) : Option String :=
  match n.kind with
  | .thisExpression => some "this"
  | .functionDeclaration => (nameOf? n).map functionLabel
  | _ => none

variable {table : ScopeTable} {n : Node}

theorem literalText_document (hf : n.Faithful) (hk : n.kind = .literal) :
    literalText n.document = literalLabel n := by
  have hdata (key : String) (hkey : key ≠ "type") : n.document.get? key = n.data? key :=
    hf.get?_document (by simp [Kind.Ignores, hk, fixedPlan?, hkey])
  rewrite [literalText, literalLabel, hdata "regex" (by decide), hdata "value" (by decide),
    Node.getString?_document]
  rfl

theorem nameOf?_document (hf : n.Faithful) (hk : n.kind = .functionDeclaration) :
    ((n.document.get? "id").bind (·.getString? "name")) = nameOf? n := by
  rw [nameOf?, hf.get?_document (by simp [Kind.Ignores, hk, fixedPlan?])]

/-- The label that a node gets on its way in or out, composed of what the table has for its
    parts. -/
theorem composedLabel?_document (hf : n.Faithful) :
    composedLabel? n.document (fun key => (n.child? key).bind fun c => table.srcName? c.id)
        (((n.list? "elements").getD []).map fun slot => (slot.bind table.srcName?).getD "") =
      (exitLabel? table n).or (entryLabel? n) := by
  rw [composedLabel?, hf.kind_document, exitLabel?, entryLabel?]
  cases hk : n.kind with
  | identifier => exact (n.getString?_document "name").trans (Option.or_none).symm
  | literal => rw [literalText_document hf hk]; rfl
  | functionDeclaration => rw [nameOf?_document hf hk]; rfl
  | _ => simp only [Node.getString?_document, Node.isTrueAt_document]; rfl

/-- The part at a key that the kind of a node visits is its child there. -/
theorem part_document (hf : n.Faithful) {key : String} (hkey : ¬ n.kind.Ignores key) :
    (n.document.get? key).bind sourceLabel? =
      (n.child? key).bind fun c => sourceLabel? c.document := by
  cases hchild : n.child? key with
  | some c =>
    rw [Node.get?_document_of_child? hchild]
    rfl
  | none =>
    rw [Node.get?_document]
    cases hfield : n.field? key with
    | none => rfl
    | some f =>
      refine sourceLabel?_of_not_isNode ?_
      cases f with
      | node id =>
        have hnone : n.childAt? id = none := by
          rw [Node.child?, hfield] at hchild
          exact hchild
        show (builtChild n.built id).isNode = false
        rw [Node.builtChild_built, hnone]
        rfl
      | list slots => rfl
      | data v => exact hf.visited key v hkey hfield

theorem elementsOf_of_list? (hchildren : ∀ c ∈ n.children, c.Faithful)
    {slots : List (Option NodeId)} (h : n.list? "elements" = some slots) :
    elementsOf n.document =
      slots.map fun slot => ((slot.bind n.childAt?).map Node.document).getD .null := by
  have hitems : n.document.itemsAt "elements" =
      slots.map fun slot => ((slot.bind n.childAt?).map Node.document).getD .null := by
    rw [itemsAt, Node.get?_document_of_list? h]
    rfl
  rw [elementsOf, hitems, if_pos]
  refine List.all_eq_true.mpr fun e he => ?_
  obtain ⟨slot, -, rfl⟩ := List.mem_map.mp he
  cases hchild : slot.bind n.childAt? with
  | none => rfl
  | some c =>
    obtain ⟨id, -, hc⟩ := Option.bind_eq_some_iff.mp hchild
    have hnode := (hchildren c (Node.childAt?_mem hc)).isNode_document
    rw [Option.map_some, Option.getD_some, hnode, Bool.or_true]

/-- An array expression visits its elements, so a list of them that was not visited has something
    else in it. -/
theorem elementsOf_of_list?_eq_none (hf : n.Faithful) (hk : n.kind = .arrayExpression)
    (h : n.list? "elements" = none) : elementsOf n.document = [] := by
  rw [elementsOf, itemsAt, Node.get?_document]
  cases hfield : n.field? "elements" with
  | none => rfl
  | some f =>
    cases f with
    | node id =>
      rcases n.exists_builtChild_built id with hnull | ⟨fields, hobject⟩
      · simp [Field.rebuild, hnull, array?]
      · simp [Field.rebuild, hobject, array?]
    | list slots =>
      rw [Node.list?, hfield] at h
      cases h
    | data v =>
      have hplain : visitValue v = .plain :=
        hf.planned [("elements", .reference)] (by rw [hk]; rfl) "elements" (by simp) v hfield
      cases v with
      | array items => exact if_neg (Bool.eq_false_iff.mp (all_isNode_eq_false_of_plain hplain))
      | _ => rfl

/-- The elements of an array expression are the nodes in its slots. -/
theorem elementsOf_document (hf : n.Faithful) (hchildren : ∀ c ∈ n.children, c.Faithful)
    (hk : n.kind = .arrayExpression) :
    elementsOf n.document = ((n.list? "elements").getD []).map fun slot =>
      ((slot.bind n.childAt?).map Node.document).getD .null := by
  cases hlist : n.list? "elements" with
  | some slots => exact elementsOf_of_list? hchildren hlist
  | none => exact elementsOf_of_list?_eq_none hf hk hlist

/-- Once the parts of a node have their labels in the table, what it gets on its way in or out is
    its label. -/
theorem exitLabel?_or_entryLabel? (hf : n.Faithful) (hlinked : n.Linked)
    (hchildren : ∀ c ∈ n.children, c.Faithful)
    (hnames : ∀ c ∈ n.children, table.srcName? c.id = sourceLabel? c.document) :
    (exitLabel? table n).or (entryLabel? n) = sourceLabel? n.document := by
  rw [← composedLabel?_document hf, sourceLabel?_eq]
  refine composedLabel?_congr hf.kind_document (fun key hkey => ?parts) fun hk => ?elements
  case parts =>
    rw [part_document hf (not_ignores_of_mem_labelParts hkey)]
    cases hchild : n.child? key with
    | none => rfl
    | some c => exact hnames c (Node.child?_mem hchild)
  case elements =>
    rw [elementsOf_document hf hchildren hk, List.map_map]
    refine List.map_congr_left fun slot hslot => ?_
    have hlabel : slot.bind table.srcName? =
        sourceLabel? (((slot.bind n.childAt?).map Node.document).getD .null) := by
      cases slot with
      | none => exact (sourceLabel?_of_not_isNode rfl).symm
      | some id =>
        obtain ⟨c, hc, hchild, rfl⟩ :=
          hlinked.exists_childAt? (Node.mem_idsIn_of_mem_slots hslot)
        rw [Option.bind_some, Option.bind_some, hchild]
        exact hnames c hc
    rw [Function.comp_apply, hlabel]

/-! ## What a walk writes -/

/-- The second table is the first one with a label for one node, if there is one for it. -/
structure ScopeTable.Gains (t t' : ScopeTable) (id : NodeId) (label : Option String) : Prop where
  size : t'.info.size = t.info.size
  srcName? : ∀ j, t'.srcName? j = if j = id then label.or (t.srcName? j) else t.srcName? j

namespace ScopeTable.Gains

variable {t t' t'' : ScopeTable} {id : NodeId} {label : Option String}

theorem of_same (h : t'.info.map (·.srcName) = t.info.map (·.srcName)) : t.Gains t' id none where
  size := by simpa using congrArg Array.size h
  srcName? j := by
    rw [Option.none_or, ite_self]
    exact bind_info_of_map_eq h j

theorem trans_same (h : t.Gains t' id label)
    (hsame : t''.info.map (·.srcName) = t'.info.map (·.srcName)) : t.Gains t'' id label where
  size := (of_same hsame : t'.Gains t'' id none).size.trans h.size
  srcName? j := (bind_info_of_map_eq hsame j).trans (h.srcName? j)

end ScopeTable.Gains

namespace Pass

variable {p : Pass}

theorem gains_setSrcName {id : NodeId} (h : id < p.table.info.size) (text : String) :
    p.table.Gains (p.setSrcName id text).table id (some text) where
  size := by simp [setSrcName, ScopeTable.modifyInfo]
  srcName? j := by
    simp only [ScopeTable.srcName?, setSrcName, ScopeTable.modifyInfo, Array.getElem?_modify]
    by_cases hj : j = id
    · subst hj
      simp [h]
    · simp [hj, Ne.symm hj]

theorem gains_enter (h : n.id < p.table.info.size) :
    p.table.Gains (p.enter n).table n.id (entryLabel? n) := by
  unfold Pass.enter entryLabel?
  cases hk : n.kind with
  | identifier =>
    refine .of_same ?_
    dsimp only
    repeat' first | split | rfl | rw [table_reference]
  | thisExpression => exact gains_setSrcName h "this"
  | labeledStatement =>
    dsimp only
    split
    · exact .of_same (ScopeTable.map_info_modifyInfo fun _ => rfl)
    · exact .of_same rfl
  | functionDeclaration =>
    dsimp only
    cases nameOf? n with
    | none => exact .of_same rfl
    | some name =>
      have hname := gains_setSrcName h (functionLabel name)
      dsimp only
      split
      · exact hname
      · exact hname.trans_same rfl
  | _ => exact .of_same rfl

theorem gains_begin (h : n.id < p.table.info.size) (tracking : Bool) (parent : Option Node) :
    p.table.Gains (p.begin tracking parent n).table n.id (entryLabel? n) :=
  (gains_enter h).trans_same
    (map_info_begin (fun _ => rfl) (fun _ _ => rfl) p tracking parent n)

theorem gains_finish (h : n.id < p.table.info.size) (tracking : Bool) :
    p.table.Gains (p.finish tracking n).table n.id (exitLabel? p.table n) := by
  have hexit : p.table.Gains (p.exit n).table n.id (exitLabel? p.table n) := by
    unfold Pass.exit
    split
    · next label hlabel =>
      rw [hlabel]
      exact gains_setSrcName h label
    · next hnone =>
      rw [hnone]
      exact .of_same rfl
  exact hexit.trans_same (by rw [info_finish])

end Pass

/-! ## Whole walks -/

variable {d : Document} {t : Tree} {tracking : Bool} {around : List Node}

/-- No node from a number on has a label yet. -/
structure Unnamed (t : Tree) (k : Nat) (p : Pass) : Prop where
  size : p.table.info.size = t.size
  unnamed : ∀ id, k ≤ id → p.table.srcName? id = none

/-- What a walk from one number up to another does to labels: it keeps those before, gives the nodes
    at these sites the labels of their documents, and writes none for a node behind. -/
structure Named (t : Tree) (sites : List (Node × List Node)) (start stop : Nat) (p q : Pass) :
    Prop where
  before : ∀ id, id < start → q.table.srcName? id = p.table.srcName? id
  named : ∀ s ∈ sites, s.1.id < stop ∧ q.table.srcName? s.1.id = sourceLabel? s.1.document
  behind : Unnamed t stop q

theorem id_lt_of_mem_below (ht : Tree.ofDocument d = .ok t) {n : Node}
    (hn : (n, around) ∈ t.sites) {s : Node × List Node}
    (hs : s ∈ n.children.flatMap (·.sites (n :: around))) : n.id < s.1.id := by
  obtain ⟨c, hc, hs⟩ := List.mem_flatMap.mp hs
  have hsite : s ∈ t.sites := Node.sites_subset (Tree.mem_sites_cons.mpr ⟨hn, hc⟩) hs
  obtain ⟨m, path⟩ := s
  obtain ⟨between, rfl⟩ := Node.exists_between hs
  exact Tree.id_lt_of_mem_around ht hsite n (by simp)

theorem unnamed_begin (ht : Tree.ofDocument d = .ok t) {n : Node} (hn : (n, around) ∈ t.sites)
    {p : Pass} (hp : Unnamed t n.id p) (tracking : Bool) (parent : Option Node) :
    Unnamed t (n.id + 1) (p.begin tracking parent n) := by
  have hbegin := Pass.gains_begin (hp.size ▸ Tree.id_lt_size ht hn) tracking parent
  refine ⟨hbegin.size.trans hp.size, fun id hid => ?_⟩
  rw [hbegin.srcName?, if_neg (Nat.ne_of_gt hid), hp.unnamed id (Nat.le_of_lt hid)]

/-- A walk of a node gives it the label composed of those that the walks of its children gave. -/
theorem named_of_below (ht : Tree.ofDocument d = .ok t) {n : Node} (hn : (n, around) ∈ t.sites)
    {j : Nat} (hj : n.id < j) {p q : Pass} (hp : Unnamed t n.id p) {parent : Option Node}
    (hq : Named t (n.children.flatMap (·.sites (n :: around))) (n.id + 1) j
      (p.begin tracking parent n) q) :
    Named t (n.sites around) n.id j p (q.finish tracking n) := by
  have hsize : n.id < t.size := Tree.id_lt_size ht hn
  have hbegin := Pass.gains_begin (hp.size ▸ hsize) tracking parent
  have hfinish := Pass.gains_finish (hq.behind.size ▸ hsize) tracking
  have hchildren : ∀ c ∈ n.children, (c, n :: around) ∈ t.sites :=
    fun c hc => Tree.mem_sites_cons.mpr ⟨hn, hc⟩
  have hname : (exitLabel? q.table n).or (q.table.srcName? n.id) = sourceLabel? n.document := by
    rw [hq.before n.id (Nat.lt_succ_self _), hbegin.srcName?, if_pos rfl,
      hp.unnamed n.id (Nat.le_refl _), Option.or_none]
    refine exitLabel?_or_entryLabel? (Tree.faithful ht hn) (Tree.linked ht hn)
      (fun c hc => Tree.faithful ht (hchildren c hc)) fun c hc => ?_
    exact (hq.named (c, n :: around)
      (List.mem_flatMap.mpr ⟨c, hc, Node.self_mem_sites c _⟩)).2
  refine ⟨fun id hid => ?before, fun s hs => ?named, ⟨?size, fun id hid => ?behind⟩⟩
  case before =>
    rw [hfinish.srcName?, if_neg (Nat.ne_of_lt hid), hq.before id (Nat.lt_succ_of_lt hid),
      hbegin.srcName?, if_neg (Nat.ne_of_lt hid)]
  case named =>
    rw [Node.sites_eq] at hs
    rcases List.mem_cons.mp hs with rfl | hs
    · exact ⟨hj, by rw [hfinish.srcName?, if_pos rfl, hname]⟩
    · obtain ⟨hlt, hlabel⟩ := hq.named s hs
      have hne : s.1.id ≠ n.id := Nat.ne_of_gt (id_lt_of_mem_below ht hn hs)
      exact ⟨hlt, by rw [hfinish.srcName?, if_neg hne, hlabel]⟩
  case size => exact hfinish.size.trans hq.behind.size
  case behind =>
    rw [hfinish.srcName?, if_neg (Nat.ne_of_gt (hj.trans_le hid)), hq.behind.unnamed id hid]

/-- A walk gives every node below the label of its document. -/
theorem named_visit (ht : Tree.ofDocument d = .ok t) (tracking : Bool) {n : Node}
    (hn : (n, around) ∈ t.sites) {i j : Nat} (hs : n.Spans i j) {p : Pass} (hp : Unnamed t i p) :
    Named t (n.sites around) i j p (Pass.visit tracking around.head? n p) := by
  refine Tree.walk_induct
    (fun n around i j => ∀ p, Unnamed t i p →
      Named t (n.sites around) i j p (Pass.visit tracking around.head? n p))
    (fun ns around i j => ∀ p, Unnamed t i p →
      Named t (ns.flatMap (·.sites around)) i j p
        (ns.foldl (fun p c => Pass.visit tracking around.head? c p) p))
    ?below ?nil ?cons hn hs p hp
  case below =>
    intro n around j hn hj hbelow p hp
    rw [Pass.visit_eq]
    exact named_of_below ht hn hj hp (hbelow _ (unnamed_begin ht hn hp tracking around.head?))
  case nil =>
    intro around i p hp
    exact ⟨fun _ _ => rfl, by simp, hp⟩
  case cons =>
    intro c rest around i mid j himid hmidj hfirst hothers p hp
    have hc := hfirst p hp
    have hrest := hothers _ hc.behind
    refine ⟨fun id hid => ?_, fun s hs => ?_, hrest.behind⟩
    · exact (hrest.before id (hid.trans himid)).trans (hc.before id hid)
    · rw [List.flatMap_cons] at hs
      rcases List.mem_append.mp hs with hs | hs
      · obtain ⟨hlt, hname⟩ := hc.named s hs
        exact ⟨hlt.trans_le hmidj, (hrest.before _ hlt).trans hname⟩
      · exact hrest.named s hs

/-- At the end of a walk every node has the label of its document, with blocks tracked or not. The
    label is read off by recursion over what is below the node and nothing else. -/
theorem labels_compositional (ht : Tree.ofDocument d = .ok t) (tracking : Bool) {n : Node}
    (hn : (n, around) ∈ t.sites) :
    (annotate tracking t).srcName? n.id = sourceLabel? n.document := by
  have hstart : Unnamed t 0 ⟨[], .blank t.size⟩ := by
    refine ⟨by simp [ScopeTable.blank], fun id _ => ?_⟩
    simp only [ScopeTable.srcName?, ScopeTable.blank, Array.getElem?_replicate]
    split <;> rfl
  have hnamed := named_visit ht tracking (Node.self_mem_sites t.root [])
    (Tree.sound_ofDocument ht).1 hstart
  exact (hnamed.named (n, around) hn).2

/-- `function g() { [f(x)[0], , this, new ?()]; }`, with nothing in the place of the question
    mark. -/
def patchyDocument : Document :=
  let call := syntaxDocument "CallExpression" [("callee", identifierDocument "f"),
    ("arguments", .array [identifierDocument "x"])]
  let index := syntaxDocument "Literal" [("value", .number (.integer 0)), ("raw", .string "0")]
  let member := syntaxDocument "MemberExpression" [("object", call), ("property", index),
    ("computed", .boolean true)]
  syntaxDocument "Program" [("body", .array [functionDocument (some "g") [] [statementDocument
    (syntaxDocument "ArrayExpression" [("elements", .array [member, .null,
      syntaxDocument "ThisExpression" [],
      syntaxDocument "NewExpression" [("arguments", .array [])]])])]])]

def patchyTree : Tree := treeOf patchyDocument

theorem labels_compositional_patchy :
    Tree.ofDocument patchyDocument = .ok patchyTree ∧
    ∃ n around, (n, around) ∈ patchyTree.sites ∧ n.kind = .arrayExpression ∧
      (annotate true patchyTree).srcName? n.id = sourceLabel? n.document ∧
      sourceLabel? n.document = some "[f(...)[0],,this,new ??(...)]" := by
  have hsite : patchyTree.sites[4] ∈ patchyTree.sites := List.getElem_mem (by decide)
  have hlabel := labels_compositional (d := patchyDocument) rfl true hsite
  exact ⟨rfl, _, _, hsite, by decide, hlabel, hlabel.symm.trans (by decide +kernel)⟩

end ScriptSandbox.Scope
