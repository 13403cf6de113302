import ScriptSandbox.Proofs.Scope.Rereading
import ScriptSandbox.Proofs.Syntax.Relowering

/-
  Annotating twice.

  The keys under which annotations are written matter neither to lowering nor to annotating: they
  are skipped, or stand in nodes that visit other fields (`ignores_of_mem`). Two of them are not
  skipped everywhere. `lexicals` is written on contexts only, which visit nothing but their bodies;
  `label` is written on the body of a labeled statement, so no labeled statement and no jump may be
  such a body (`BodiesUnlabeled`): it would lose its label to the annotation, and with it a node.
  Then annotating an annotated document gives the document and the table that are there already
  (`annotateDocument_idempotent`).
-/

namespace ScriptSandbox.Scope

open Syntax

variable {d : Document} {t : Tree} {n : Node} {path : List Node} {key : String} {k : Kind}

/-! ## The keys of annotations -/

/-- The kinds whose label is a field that is visited. -/
def visitsLabel : Kind → Bool
  | .labeledStatement | .breakStatement | .continueStatement => true
  | _ => false

theorem eq_label_of_mem_fixedPlan? {plan : List (String × Role)} (hplan : fixedPlan? k = some plan)
    (hmem : key ∈ plan.map (·.1)) (hkey : key ∈ annotationKeys) :
    key = "label" ∧ visitsLabel k = true := by
  have hall : ∀ key ∈ plan.map (·.1), key ∈ annotationKeys →
      key = "label" ∧ visitsLabel k = true := by
    cases k <;> cases hplan <;> decide
  exact hall key hmem hkey

theorem exists_fixedPlan?_of_isContext (h : k.isContext = true) :
    ∃ plan, fixedPlan? k = some plan := by
  rcases Bool.or_eq_true_iff.mp h with h | h
  · exact ⟨_, congrArg fixedPlan? (of_decide_eq_true h)⟩
  · cases k <;> first | exact ⟨_, rfl⟩ | cases h

/-- Lowering ignores the keys of annotations, `label` where there is no label to visit, and
    `lexicals` on contexts. -/
theorem ignores_of_mem (hkey : key ∈ annotationKeys)
    (hlabel : key = "label" → visitsLabel k = false)
    (hlexicals : key = "lexicals" → k.isContext = true) : k.Ignores key := by
  have htype : ∀ key ∈ annotationKeys, key ≠ "type" := by decide
  have hskipped : ∀ key ∈ annotationKeys, key ≠ "lexicals" → key ∈ skippedKeys := by decide
  refine ⟨htype key hkey, ?_⟩
  split
  · next plan hplan =>
    intro hmem
    obtain ⟨heq, hvisits⟩ := eq_label_of_mem_fixedPlan? hplan hmem hkey
    rw [hlabel heq] at hvisits
    cases hvisits
  · next hplan =>
    refine hskipped key hkey fun heq => ?_
    obtain ⟨plan, hsome⟩ := exists_fixedPlan?_of_isContext (hlexicals heq)
    rw [hsome] at hplan
    cases hplan

/-! ## What is written where -/

section

variable {table : ScopeTable} {id : NodeId} {tracking : Bool}

/-- A node is annotated with the names of its context where it has a scope. -/
theorem exists_scope_of_mem_annotations
    (h : "lexicals" ∈ (table.annotations id).map (·.1)) :
    ∃ s, table.functionScope? id = some s := by
  cases hs : table.functionScope? id with
  | some s => exact ⟨s, rfl⟩
  | none =>
    unfold ScopeTable.annotations at h
    unfold ScopeTable.functionScope? ScopeTable.scopeId? at hs
    cases hinfo : table.info[id]? with
    | none => simp [hinfo] at h
    | some info =>
      rw [hinfo, Option.bind_some] at hs
      simp only [hinfo, hs] at h
      simp at h

/-- A node that has a scope is a context. -/
theorem isContext_of_functionScope? (ht : Tree.ofDocument d = .ok t) (hn : (n, path) ∈ t.sites)
    {s : FunctionScope} (hs : (annotate tracking t).functionScope? n.id = some s) :
    n.kind.isContext = true := by
  obtain ⟨i, hi, hsi⟩ := ScopeTable.functionScope?_eq_some.mp hs
  obtain ⟨c, above, hc, hk, hsc⟩ :=
    exists_context_of_scope tracking ht (Array.mem_of_getElem? hsi)
  obtain ⟨j, hj, hsj⟩ := ScopeTable.functionScope?_eq_some.mp hsc
  obtain ⟨p, hp, -, hw, -⟩ := annotate_induct tracking (J := fun _ _ _ => True) ht
    (fun _ _ _ => trivial) (fun _ _ _ _ => trivial) trivial
  rw [hp] at hi hsi hj hsj
  obtain ⟨-, s', hs', hnode, -⟩ := hw.linked n.id i hi
  obtain ⟨-, s'', hs'', hnode', -⟩ := hw.linked c.id j hj
  cases hsi.symm.trans hs'
  cases hsj.symm.trans hs''
  cases Tree.site_unique ht hn hc (hnode.symm.trans hnode')
  exact hk

/-- A node that is annotated with a label is the body of a labeled statement. -/
theorem body_of_mem_annotations (ht : Tree.ofDocument d = .ok t) (hn : (n, path) ∈ t.sites)
    (h : "label" ∈ ((annotate tracking t).annotations n.id).map (·.1)) :
    ∃ m above, (m, above) ∈ t.sites ∧ m.kind = .labeledStatement ∧ m.child? "body" = some n := by
  obtain ⟨label, hlabel⟩ := label?_of_mem_annotations h
  obtain ⟨m, above, hm, hl⟩ := (label?_annotate tracking ht n.id label).mp hlabel
  obtain ⟨hk, -, body, hb, he⟩ := Node.bodyLabel?_eq_some.mp hl
  cases Tree.site_unique ht (Tree.mem_sites_cons.mpr ⟨hm, Node.child?_mem hb⟩) hn he
  exact ⟨m, above, hm, hk, hb⟩

end

/-- No labeled statement has a statement with a label of its own as its body. -/
def BodiesUnlabeled (t : Tree) : Prop :=
  ∀ n path, (n, path) ∈ t.sites → n.kind = .labeledStatement →
    ∀ body, n.child? "body" = some body → visitsLabel body.kind = false

theorem BodiesUnlabeled.visitsLabel_eq_false (hbody : BodiesUnlabeled t)
    (ht : Tree.ofDocument d = .ok t) (hn : (n, path) ∈ t.sites) {tracking : Bool}
    (h : "label" ∈ ((annotate tracking t).annotations n.id).map (·.1)) :
    visitsLabel n.kind = false := by
  obtain ⟨m, above, hm, hk, hb⟩ := body_of_mem_annotations ht hn h
  exact hbody m above hm hk n hb

theorem mem_annotationKeys {table : ScopeTable} {id : NodeId}
    (h : key ∈ (table.annotations id).map (·.1)) : key ∈ annotationKeys :=
  (annotations_sublist table id).subset h

/-- Lowering overlooks the annotations of a node. -/
theorem overlooks_annotations (ht : Tree.ofDocument d = .ok t) (hbody : BodiesUnlabeled t)
    (tracking : Bool) (hn : (n, path) ∈ t.sites) :
    Overlooks (annotate tracking t).annotations n := by
  intro key hkey
  refine ignores_of_mem (mem_annotationKeys hkey) ?_ ?_
  · rintro rfl
    exact hbody.visitsLabel_eq_false ht hn hkey
  · rintro rfl
    obtain ⟨s, hs⟩ := exists_scope_of_mem_annotations hkey
    exact isContext_of_functionScope? ht hn hs

/-- Annotating a tree does not read the annotations of a node. -/
theorem unread_annotations (ht : Tree.ofDocument d = .ok t) (hbody : BodiesUnlabeled t)
    (tracking : Bool) (hn : (n, path) ∈ t.sites) :
    Unread (annotate tracking t).annotations n := by
  refine fun key hkey => ⟨mem_annotationKeys hkey, ?_⟩
  rintro hk rfl
  have hvisits := hbody.visitsLabel_eq_false ht hn hkey
  rw [hk] at hvisits
  cases hvisits

/-! ## Annotating twice -/

/-- Where no labeled statement has a labeled statement or a jump as its body, annotating an
    annotated document changes nothing in it, and its table is the same; what stood under the keys
    of annotations before the first time does not matter. -/
theorem annotateDocument_idempotent (ht : Tree.ofDocument d = .ok t) (hkeys : d.KeysDistinct)
    (hbody : BodiesUnlabeled t) :
    ∃ d' table, annotateDocument d = .ok (d', table) ∧
      annotateDocument d' = .ok (d', table) := by
  let table := annotate true t
  -- Writing the annotations into the objects of a document is overwriting its tree.
  let d' := t.toDocumentWith (overwriting table.annotations)
  have hnodup (id : NodeId) : ((table.annotations id).map (·.1)).Nodup :=
    (annotations_sublist table id).nodup (by decide)
  have hlowered : Tree.ofDocument d' = .ok (t.overwrite table.annotations) :=
    Tree.ofDocument_overwritten ht hkeys fun _ hn => overlooks_annotations ht hbody true hn
  have htable : annotate true (t.overwrite table.annotations) = table :=
    annotate_overwrite true fun _ hn => unread_annotations ht hbody true hn
  have hdocument : (t.overwrite table.annotations).toDocumentWith (overwriting table.annotations) =
      d' := Tree.toDocumentWith_overwrite hnodup t
  refine ⟨d', table, by rw [annotateDocument, ht]; rfl, ?_⟩
  calc annotateDocument d'
    _ = .ok ((t.overwrite table.annotations).toDocumentWith
          (overwriting (annotate true (t.overwrite table.annotations)).annotations),
        annotate true (t.overwrite table.annotations)) := by rw [annotateDocument, hlowered]; rfl
    _ = .ok (d', table) := by rw [htable, hdocument]

/-- `a: while (x) { break a; } function f() {}` with keys of annotations in it that are not right:
    numbers and names that are, a label where there is another, and nodes under `lexicals`. -/
def staleDocument : Document :=
  syntaxDocument "Program" [("nodeId", .number (.integer 7)), ("body", .array [
    labeledDocument "a" (syntaxDocument "WhileStatement" [("label", .string "b"),
      ("test", identifierDocument "x"), ("body", blockDocument [breakDocument "a"])]),
    syntaxDocument "FunctionDeclaration" [("lexicals", identifierDocument "y"),
      ("srcName", .string "g"), ("id", identifierDocument "f"), ("params", .array []),
      ("body", blockDocument [])]])]

theorem annotateDocument_idempotent_stale :
    Tree.ofDocument staleDocument = .ok (treeOf staleDocument) ∧ staleDocument.KeysDistinct ∧
      BodiesUnlabeled (treeOf staleDocument) ∧
      ∃ d' table, annotateDocument staleDocument = .ok (d', table) ∧
        annotateDocument d' = .ok (d', table) := by
  have hkeys : staleDocument.KeysDistinct := by
    simp [staleDocument, labeledDocument, breakDocument, blockDocument, identifierDocument,
      syntaxDocument]
  have hbody : ∀ s ∈ (treeOf staleDocument).sites, s.1.kind = .labeledStatement →
      ∀ body ∈ s.1.child? "body", visitsLabel body.kind = false := by decide
  have hbodies : BodiesUnlabeled (treeOf staleDocument) := fun n path hn => hbody (n, path) hn
  exact ⟨rfl, hkeys, hbodies, annotateDocument_idempotent rfl hkeys hbodies⟩

end ScriptSandbox.Scope
