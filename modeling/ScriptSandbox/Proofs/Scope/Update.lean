import ScriptSandbox.Scope.Annotation

/-
  What a walk changes at a node.

  Of a table, the bindings of a context are read through its node: `scopeId?` and `functionScope?`.
  The way into a node adds to the scope of the innermost context what the node declares
  (`FunctionScope.note`), and pushes a scope if the node is a context itself (`entered`); the way
  out writes the captured and free names of a context and nothing else. The lemmas say so of
  `Pass.begin` and `Pass.finish` as a whole, so that no later proof opens them.
-/

namespace ScriptSandbox

namespace Syntax.Node

/-- The name that an identifier refers to; one in a place for names refers to nothing. -/
def reference? (n : Node) : Option String :=
  if n.kind = .identifier ∧ n.role = .reference then n.stringData? "name" else none

theorem kind_of_reference? {n : Node} {name : String} (h : n.reference? = some name) :
    n.kind = .identifier := by
  unfold reference? at h
  split at h
  · next hn => exact hn.1
  · cases h

end Syntax.Node

namespace Scope

open Syntax

/-! ## Tables read through the nodes -/

namespace ScopeTable

variable {t : ScopeTable} {id : NodeId} {i : ScopeId}

/-- The scope that a node owns. -/
def scopeId? (t : ScopeTable) (id : NodeId) : Option ScopeId := t.info[id]?.bind (·.scope)

/-- What is recorded about the context of a node, if it has one. -/
def functionScope? (t : ScopeTable) (id : NodeId) : Option FunctionScope :=
  (t.scopeId? id).bind (t.scopes[·]?)

/-- The context of a node has a property. -/
def Has (t : ScopeTable) (id : NodeId) (P : FunctionScope → Prop) : Prop :=
  ∃ s, t.functionScope? id = some s ∧ P s

theorem has_or {P Q : FunctionScope → Prop} :
    t.Has id (fun s => P s ∨ Q s) ↔ t.Has id P ∨ t.Has id Q := by
  simp only [Has, and_or_left, exists_or]

theorem functionScope?_eq_some {s : FunctionScope} :
    t.functionScope? id = some s ↔ ∃ i, t.scopeId? id = some i ∧ t.scopes[i]? = some s := by
  simp [functionScope?, Option.bind_eq_some_iff]

@[simp] theorem scopeId?_modifyScope (f : FunctionScope → FunctionScope) :
    (t.modifyScope i f).scopeId? id = t.scopeId? id := rfl

@[simp] theorem size_scopes_modifyScope (f : FunctionScope → FunctionScope) :
    (t.modifyScope i f).scopes.size = t.scopes.size := by simp [modifyScope]

theorem scopes_modifyScope (f : FunctionScope → FunctionScope) (j : ScopeId) :
    (t.modifyScope i f).scopes[j]? = if i = j then t.scopes[j]?.map f else t.scopes[j]? := by
  simp [modifyScope, Array.getElem?_modify]

theorem functionScope?_modifyScope (f : FunctionScope → FunctionScope) :
    (t.modifyScope i f).functionScope? id =
      if t.scopeId? id = some i then (t.functionScope? id).map f else t.functionScope? id := by
  simp only [functionScope?, scopeId?_modifyScope]
  cases t.scopeId? id with
  | none => simp
  | some j =>
    simp only [Option.bind_some, scopes_modifyScope, Option.some.injEq]
    by_cases h : i = j <;> simp [h, eq_comm]

theorem modifyScope_modifyScope (f g : FunctionScope → FunctionScope) :
    (t.modifyScope i f).modifyScope i g = t.modifyScope i (fun s => g (f s)) := by
  have h : ((t.scopes.modify i f).modify i g) = t.scopes.modify i (fun s => g (f s)) := by
    apply Array.ext_getElem?
    intro j
    simp only [Array.getElem?_modify]
    split <;> simp [Function.comp_def]
  simp [modifyScope, h]

theorem modifyScope_self : t.modifyScope i (fun s => s) = t := by
  have h : t.scopes.modify i (fun s => s) = t.scopes := by
    apply Array.ext_getElem?
    intro j
    simp [Array.getElem?_modify]
  simp [modifyScope, h]

/-- A scope that is changed right after it was added. -/
theorem pushScope_modifyScope {s : FunctionScope} {f : FunctionScope → FunctionScope}
    (hf : (f s).node = s.node) :
    (t.pushScope s).modifyScope t.scopes.size f = t.pushScope (f s) := by
  have h : (t.scopes.push s).modify t.scopes.size f = t.scopes.push (f s) := by
    apply Array.ext_getElem?
    intro j
    simp only [Array.getElem?_modify, Array.getElem?_push]
    grind
  simp [pushScope, modifyScope, modifyInfo, h, hf]

@[simp] theorem scopes_pushScope (s : FunctionScope) : (t.pushScope s).scopes = t.scopes.push s :=
  rfl

@[simp] theorem size_info_pushScope (s : FunctionScope) :
    (t.pushScope s).info.size = t.info.size := by simp [pushScope, modifyInfo]

theorem scopeId?_pushScope {s : FunctionScope} (hs : s.node < t.info.size) :
    (t.pushScope s).scopeId? id = if id = s.node then some t.scopes.size else t.scopeId? id := by
  simp only [scopeId?, pushScope, modifyInfo, Array.getElem?_modify]
  by_cases h : id = s.node
  · subst h
    simp [hs]
  · simp [h, Ne.symm h]

theorem functionScope?_pushScope {s : FunctionScope} (hs : s.node < t.info.size)
    (ht : ∀ id i, t.scopeId? id = some i → i < t.scopes.size) :
    (t.pushScope s).functionScope? id = if id = s.node then some s else t.functionScope? id := by
  simp only [functionScope?, scopeId?_pushScope hs, scopes_pushScope]
  split
  · simp
  · cases h : t.scopeId? id with
    | none => rfl
    | some i => simp [Array.getElem?_push, Nat.ne_of_lt (ht id i h)]

/-- What is read from the entries of two tables is the same when the entries agree in it. -/
theorem bind_info_of_map_eq {α : Type} {t t' : ScopeTable} {get : NodeInfo → Option α}
    (h : t.info.map get = t'.info.map get) (id : NodeId) :
    t.info[id]?.bind get = t'.info[id]?.bind get := by
  have hid := congrArg (fun entries => entries[id]?) h
  simp only [Array.getElem?_map] at hid
  cases hi : t.info[id]? <;> cases hi' : t'.info[id]? <;> simp_all

theorem map_info_modifyInfo {α : Type} {get : NodeInfo → α} {f : NodeInfo → NodeInfo}
    (hf : ∀ i, get (f i) = get i) : (t.modifyInfo id f).info.map get = t.info.map get := by
  apply Array.ext_getElem?
  intro j
  simp only [modifyInfo, Array.getElem?_map, Array.getElem?_modify]
  split
  · cases t.info[j]? <;> simp [hf]
  · rfl

/-- Tables with the same scopes at the same nodes: they differ in labels and strictness only. -/
structure SameScopes (t t' : ScopeTable) : Prop where
  scopes : t.scopes = t'.scopes
  links : t.info.map (·.scope) = t'.info.map (·.scope)

namespace SameScopes

variable {t' t'' : ScopeTable}

theorem refl (t : ScopeTable) : t.SameScopes t := ⟨rfl, rfl⟩

theorem trans (h : t.SameScopes t') (h' : t'.SameScopes t'') : t.SameScopes t'' :=
  ⟨h.scopes.trans h'.scopes, h.links.trans h'.links⟩

theorem size (h : t.SameScopes t') : t.info.size = t'.info.size := by
  simpa using congrArg Array.size h.links

theorem scopeId? (h : t.SameScopes t') (id : NodeId) : t.scopeId? id = t'.scopeId? id :=
  bind_info_of_map_eq h.links id

theorem functionScope? (h : t.SameScopes t') (id : NodeId) :
    t.functionScope? id = t'.functionScope? id := by
  rw [ScopeTable.functionScope?, ScopeTable.functionScope?, h.scopeId? id, h.scopes]

theorem modifyInfo {f : NodeInfo → NodeInfo} (hf : ∀ i, (f i).scope = i.scope) :
    (t.modifyInfo id f).SameScopes t := ⟨rfl, map_info_modifyInfo hf⟩

theorem modifyScope (h : t.SameScopes t') (i : ScopeId) (f : FunctionScope → FunctionScope) :
    (t.modifyScope i f).SameScopes (t'.modifyScope i f) :=
  ⟨by simp [ScopeTable.modifyScope, h.scopes], h.links⟩

theorem pushScope (h : t.SameScopes t') (s : FunctionScope) :
    (t.pushScope s).SameScopes (t'.pushScope s) := by
  refine ⟨by simp [h.scopes], ?_⟩
  apply Array.ext_getElem?
  intro j
  have hj := congrArg (fun links => links[j]?) h.links
  simp only [Array.getElem?_map] at hj
  simp only [ScopeTable.pushScope, ScopeTable.modifyInfo, Array.getElem?_map,
    Array.getElem?_modify, h.scopes]
  split
  · cases hi : t.info[j]? <;> cases hi' : t'.info[j]? <;> simp_all
  · exact hj

end SameScopes

end ScopeTable

/-! ## What a node adds to the scope around it -/

namespace FunctionScope

/-- A scope with a declaration recorded in it; block-scoped ones only when they are tracked. -/
def recordIn (tracking : Bool) (s : FunctionScope) (d : Declaration) : FunctionScope :=
  match d.binding with
  | .var => { s with vars := s.vars.insert d.name d.node }
  | .lexical =>
    if tracking then { s with lexicals := s.lexicals.insert d.name d.node } else s

/-- A scope with the name of a function declaration noted. -/
def noteFunction (n : Node) (s : FunctionScope) : FunctionScope :=
  if n.kind = .functionDeclaration then
    match nameOf? n with
    | some name => { s with funcs := s.funcs.insert name n.id }
    | none => s
  else s

/-- A scope with all that a node of its context adds to it. -/
def note (tracking : Bool) (parent : Option Node) (n : Node) (s : FunctionScope) : FunctionScope :=
  (declarations parent n).foldl (recordIn tracking) (s.noteFunction n)

theorem note_of_identifier {n : Node} (hn : n.kind = .identifier) (tracking : Bool)
    (parent : Option Node) (s : FunctionScope) : note tracking parent n s = s := by
  simp [note, declarations, noteFunction, hn]

/-- Scopes of one context that differ in the tables of declarations only. -/
structure SameContext (s s' : FunctionScope) : Prop where
  node : s.node = s'.node
  parent : s.parent = s'.parent
  bindsArguments : s.bindsArguments = s'.bindsArguments
  upvars : s.upvars = s'.upvars
  freevars : s.freevars = s'.freevars

namespace SameContext

theorem refl (s : FunctionScope) : SameContext s s := ⟨rfl, rfl, rfl, rfl, rfl⟩

theorem trans {s s' s'' : FunctionScope} (h : SameContext s s') (g : SameContext s' s'') :
    SameContext s s'' :=
  ⟨h.node.trans g.node, h.parent.trans g.parent, h.bindsArguments.trans g.bindsArguments,
    h.upvars.trans g.upvars, h.freevars.trans g.freevars⟩

end SameContext

theorem sameContext_recordIn (tracking : Bool) (s : FunctionScope) (d : Declaration) :
    (recordIn tracking s d).SameContext s := by
  unfold recordIn
  repeat' first | split | exact ⟨rfl, rfl, rfl, rfl, rfl⟩

theorem sameContext_foldl (tracking : Bool) (ds : List Declaration) (s : FunctionScope) :
    (ds.foldl (recordIn tracking) s).SameContext s :=
  List.foldlRecOn (motive := (SameContext · s)) ds _ (.refl s) fun s' h d _ =>
    (sameContext_recordIn tracking s' d).trans h

theorem sameContext_noteFunction (n : Node) (s : FunctionScope) :
    (s.noteFunction n).SameContext s := by
  unfold noteFunction
  repeat' first | split | exact ⟨rfl, rfl, rfl, rfl, rfl⟩

theorem sameContext_note (tracking : Bool) (parent : Option Node) (n : Node) (s : FunctionScope) :
    (note tracking parent n s).SameContext s :=
  (sameContext_foldl tracking (declarations parent n) (s.noteFunction n)).trans
    (sameContext_noteFunction n s)

end FunctionScope

/-- The scope of a frame and the blocks open in it, which no reference changes. -/
def Frame.place (f : Frame) : ScopeId × List NameSet := (f.scope, f.blocks)

theorem Frame.place_foldl_addRef (names : List String) (f : Frame) :
    (names.foldl Frame.addRef f).place = f.place :=
  List.foldlRecOn (motive := (Frame.place · = f.place)) names _ rfl fun _ h _ _ => h

theorem map_place_onInnermost {g : Frame → Frame} (hg : ∀ f, (g f).place = f.place)
    (frames : List Frame) : (onInnermost g frames).map Frame.place = frames.map Frame.place := by
  cases frames with
  | nil => rfl
  | cons f rest => simp [onInnermost, hg]

theorem declares_of_mem_declarations {parent : Option Node} {n : Node} {d : Declaration}
    (h : d ∈ declarations parent n) : Pass.declares n.kind = true := by
  unfold declarations at h
  split at h <;> simp_all [Pass.declares]

namespace Pass

open FunctionScope

theorem record_eq (tracking : Bool) (i : ScopeId) (t : ScopeTable) (d : Declaration) :
    record tracking i t d = t.modifyScope i (recordIn tracking · d) := by
  obtain ⟨name, node, binding⟩ := d
  cases binding with
  | var => rfl
  | lexical =>
    cases tracking with
    | true => rfl
    | false => exact ScopeTable.modifyScope_self.symm

theorem foldl_record (tracking : Bool) (i : ScopeId) (t : ScopeTable) (ds : List Declaration) :
    ds.foldl (record tracking i) t = t.modifyScope i (fun s => ds.foldl (recordIn tracking) s) := by
  induction ds generalizing t with
  | nil => exact ScopeTable.modifyScope_self.symm
  | cons d ds ih =>
    rw [List.foldl_cons, ih, record_eq, ScopeTable.modifyScope_modifyScope]
    rfl

/-- The scope of a context as it is when the walk goes on below: parameters, own name and hoisted
    declarations. -/
def entered (tracking : Bool) (parent : Option ScopeId) (n : Node) : FunctionScope :=
  (hoisted n).foldl (recordIn tracking) (freshScope parent n)

theorem sameContext_entered (tracking : Bool) (parent : Option ScopeId) (n : Node) :
    (entered tracking parent n).SameContext (freshScope parent n) :=
  sameContext_foldl tracking (hoisted n) _

/-- The table with the scope of the innermost context changed. -/
def modifyInnermost (p : Pass) (f : FunctionScope → FunctionScope) : ScopeTable :=
  match p.frames with
  | [] => p.table
  | fr :: _ => p.table.modifyScope fr.scope f

theorem modifyInnermost_self (p : Pass) : p.modifyInnermost (fun s => s) = p.table := by
  unfold modifyInnermost
  split
  · rfl
  · exact ScopeTable.modifyScope_self

/-! ## The way into a node -/

variable {p : Pass} {tracking : Bool} {parent : Option Node} {n : Node}

theorem begin_reference {name : String} (h : n.reference? = some name) :
    p.begin tracking parent n = p.reference name := by
  unfold Node.reference? at h
  split at h
  · next hn =>
    have henter : p.enter n = p.reference name := by simp [Pass.enter, hn.1, hn.2, h]
    simp [Pass.begin, henter, hn.1, declares, Kind.isContext, Kind.isFunction, openBlock,
      Kind.opensBlock]
  · cases h

theorem noteFunction_of_ne (h : n.kind ≠ .functionDeclaration) : noteFunction n = fun s => s := by
  funext s
  simp [noteFunction, h]

theorem sameScopes_setSrcName (p : Pass) (id : NodeId) (label : String) :
    (p.setSrcName id label).table.SameScopes p.table :=
  ScopeTable.SameScopes.modifyInfo fun _ => rfl

theorem map_place_reference (p : Pass) (name : String) :
    (p.reference name).frames.map Frame.place = p.frames.map Frame.place := by
  unfold Pass.reference
  split
  · next i h =>
    have hcapture : Frame.place ∘ (fun f => f.capture name) = Frame.place := rfl
    rw [List.map_append, List.map_map, hcapture, ← List.map_append, List.take_append_drop]
  · exact map_place_onInnermost (g := (·.addRef name)) (fun _ => rfl) p.frames

theorem table_reference (p : Pass) (name : String) : (p.reference name).table = p.table := by
  unfold Pass.reference
  split <;> rfl

/-- Apart from a reference, reaching a node changes no frame and notes a function declaration. -/
theorem enter_eq (h : n.reference? = none) :
    (p.enter n).frames = p.frames ∧
      (p.enter n).table.SameScopes (p.modifyInnermost (noteFunction n)) := by
  have same : n.kind ≠ .functionDeclaration →
      p.table.SameScopes (p.modifyInnermost (noteFunction n)) := by
    intro hn
    rw [noteFunction_of_ne hn, modifyInnermost_self]
    exact .refl _
  unfold Pass.enter
  split
  · next hk =>
    split
    · exact ⟨rfl, same (by simp [hk])⟩
    · next hrole =>
      have hrole : n.role = .reference := by cases hr : n.role <;> simp_all
      have hname : n.stringData? "name" = none := by simpa [Node.reference?, hk, hrole] using h
      rw [hname]
      exact ⟨rfl, same (by simp [hk])⟩
  · next hk => exact ⟨rfl, (sameScopes_setSrcName ..).trans (same (by simp [hk]))⟩
  · next hk =>
    split
    · refine ⟨rfl, ScopeTable.SameScopes.trans ?_ (same (by simp [hk]))⟩
      exact ScopeTable.SameScopes.modifyInfo fun _ => rfl
    · exact ⟨rfl, same (by simp [hk])⟩
  · next hk =>
    cases hname : nameOf? n with
    | none =>
      have hnote : noteFunction n = fun s => s := by
        funext s
        simp [noteFunction, hname]
      rw [hnote, modifyInnermost_self]
      exact ⟨rfl, .refl _⟩
    | some name =>
      have hnote : noteFunction n = fun s => { s with funcs := s.funcs.insert name n.id } := by
        funext s
        simp [noteFunction, hk, hname]
      have hlabel := sameScopes_setSrcName p n.id (functionLabel name)
      rw [hnote, modifyInnermost]
      cases hf : p.frames with
      | nil => simpa [setSrcName, hf] using hlabel
      | cons f rest => simpa [setSrcName, hf] using hlabel.modifyScope f.scope _
  · next _ _ _ hk => exact ⟨rfl, same hk⟩

/-- The declarations of a node go into the scope around it. -/
theorem declare_eq :
    (if declares n.kind then p.declare tracking parent n else p) =
      { p with
        table := p.modifyInnermost fun s =>
          (declarations parent n).foldl (recordIn tracking) s } := by
  obtain ⟨frames, table⟩ := p
  by_cases hd : declares n.kind
  · cases frames with
    | nil => simp [hd, declare, modifyInnermost]
    | cons f rest => simp [hd, declare, modifyInnermost, foldl_record]
  · have hnil : declarations parent n = [] :=
      List.eq_nil_iff_forall_not_mem.mpr fun d h => hd (declares_of_mem_declarations h)
    simp only [hd, hnil, List.foldl_nil, modifyInnermost_self, Bool.false_eq_true, if_false]

theorem SameScopes.modifyInnermost {p q : Pass} (hf : p.frames = q.frames)
    (ht : p.table.SameScopes q.table) (f : FunctionScope → FunctionScope) :
    (p.modifyInnermost f).SameScopes (q.modifyInnermost f) := by
  unfold Pass.modifyInnermost
  rw [hf]
  split
  · exact ht
  · exact ht.modifyScope _ f

/-- On the way into a node that refers to nothing, the scope around it notes what it declares. -/
theorem enter_declare (p : Pass) (tracking : Bool) (parent : Option Node)
    (h : n.reference? = none) :
    (if declares n.kind then (p.enter n).declare tracking parent n else p.enter n).frames =
        p.frames ∧
      (if declares n.kind then (p.enter n).declare tracking parent n
        else p.enter n).table.SameScopes (p.modifyInnermost (note tracking parent n)) := by
  obtain ⟨hframes, htable⟩ := enter_eq (p := p) h
  rw [declare_eq]
  refine ⟨hframes, ?_⟩
  have hsame := SameScopes.modifyInnermost (p := p.enter n)
    (q := ⟨p.frames, p.modifyInnermost (noteFunction n)⟩) hframes htable
    (fun s => (declarations parent n).foldl (recordIn tracking) s)
  refine hsame.trans ?_
  cases hf : p.frames with
  | nil =>
    simp only [modifyInnermost, hf]
    exact .refl _
  | cons f rest =>
    simp only [modifyInnermost, hf, ScopeTable.modifyScope_modifyScope]
    exact .refl _

/-- The names of the block that a node opens in its context, if it opens one. -/
def ownBlocks (tracking : Bool) (n : Node) : List NameSet :=
  if tracking && n.kind.opensBlock then [NameSet.ofList (blockNames n)] else []

theorem openBlock_eq :
    p.openBlock tracking n = { p with
      frames := onInnermost (fun f => { f with blocks := ownBlocks tracking n ++ f.blocks })
        p.frames } := by
  unfold openBlock ownBlocks
  split
  · rfl
  · cases hf : p.frames with
    | nil => rw [onInnermost, ← hf]
    | cons f rest => rw [onInnermost, List.nil_append, ← hf]

/-- The way into a node that neither refers to anything nor is a context. -/
theorem begin_inner (p : Pass) (tracking : Bool) (parent : Option Node)
    (h : n.reference? = none) (hn : n.kind.isContext = false) :
    (p.begin tracking parent n).frames =
        onInnermost (fun f => { f with blocks := ownBlocks tracking n ++ f.blocks }) p.frames ∧
      (p.begin tracking parent n).table.SameScopes
        (p.modifyInnermost (note tracking parent n)) := by
  obtain ⟨hframes, htable⟩ := enter_declare p tracking parent h
  simp only [Pass.begin, hn, Bool.false_eq_true, if_false, openBlock_eq]
  exact ⟨by rw [hframes], htable⟩

/-- The table with a context entered: its scope is pushed as hoisting leaves it. -/
theorem table_enterContext :
    (p.enterContext tracking n).table =
      let pushed := p.table.pushScope (entered tracking (p.frames.head?.map (·.scope)) n)
      if isStrict n then pushed.modifyInfo n.id fun i => { i with strict := true } else pushed := by
  have hpush : (hoisted n).foldl (record tracking p.table.scopes.size)
      (p.table.pushScope (freshScope (p.frames.head?.map (·.scope)) n)) =
      p.table.pushScope (entered tracking (p.frames.head?.map (·.scope)) n) := by
    rw [foldl_record, ScopeTable.pushScope_modifyScope (sameContext_foldl ..).node]
    rfl
  simp only [enterContext, hpush]

theorem sameScopes_enterContext :
    (p.enterContext tracking n).table.SameScopes
      (p.table.pushScope (entered tracking (p.frames.head?.map (·.scope)) n)) := by
  rw [table_enterContext]
  dsimp only
  split
  · exact ScopeTable.SameScopes.modifyInfo fun _ => rfl
  · exact .refl _

theorem size_modifyInnermost (f : FunctionScope → FunctionScope) :
    (p.modifyInnermost f).scopes.size = p.table.scopes.size := by
  unfold modifyInnermost
  split <;> simp

theorem reference?_of_isContext (hn : n.kind.isContext = true) : n.reference? = none := by
  have hk : n.kind ≠ .identifier := by
    rintro h
    simp [h, Kind.isContext, Kind.isFunction] at hn
  simp [Node.reference?, hk]

/-- The way into a context. -/
theorem begin_context (p : Pass) (tracking : Bool) (parent : Option Node)
    (hn : n.kind.isContext = true) :
    (p.begin tracking parent n).frames =
        ⟨p.table.scopes.size, ownBlocks tracking n, ∅, ∅⟩ :: p.frames ∧
      (p.begin tracking parent n).table.SameScopes
        ((p.modifyInnermost (note tracking parent n)).pushScope
          (entered tracking (p.frames.head?.map (·.scope)) n)) := by
  obtain ⟨hframes, htable⟩ :=
    enter_declare p tracking parent (reference?_of_isContext hn)
  simp only [Pass.begin, hn, if_true, openBlock_eq]
  constructor
  · simp only [enterContext, onInnermost, hframes, htable.scopes, size_modifyInnermost,
      List.append_nil]
  · refine sameScopes_enterContext.trans ?_
    rw [hframes]
    exact htable.pushScope _

/-! ## The way out of a node -/

theorem closeBlock_eq :
    p.closeBlock tracking n = { p with
      frames := onInnermost
        (fun f => { f with blocks := f.blocks.drop (ownBlocks tracking n).length }) p.frames } := by
  unfold closeBlock ownBlocks
  split
  · simp
  · cases hf : p.frames with
    | nil => simp [onInnermost, ← hf]
    | cons f rest => simp [onInnermost, ← hf]

theorem sameScopes_exit (p : Pass) (n : Node) :
    (p.exit n).frames = p.frames ∧ (p.exit n).table.SameScopes p.table := by
  unfold Pass.exit
  split
  · exact ⟨rfl, sameScopes_setSrcName ..⟩
  · exact ⟨rfl, .refl _⟩

/-- The way out of a node that is no context. -/
theorem finish_inner (p : Pass) (tracking : Bool) (hn : n.kind.isContext = false) :
    (p.finish tracking n).frames =
        onInnermost (fun f => { f with blocks := f.blocks.drop (ownBlocks tracking n).length })
          p.frames ∧
      (p.finish tracking n).table.SameScopes p.table := by
  simp only [Pass.finish, hn, Bool.false_eq_true, if_false, closeBlock_eq]
  exact sameScopes_exit _ n

theorem foldl_onInnermost (names : List String) (frames : List Frame) :
    names.foldl (fun frames name => onInnermost (·.addRef name) frames) frames =
      onInnermost (fun f => names.foldl Frame.addRef f) frames := by
  induction names generalizing frames with
  | nil => cases frames <;> rfl
  | cons name names ih =>
    rw [List.foldl_cons, ih]
    cases frames <;> rfl

theorem exitContext_eq {f : Frame} {rest : List Frame} (hf : p.frames = f :: rest) :
    p.exitContext =
      { frames := onInnermost
          (fun f' => (handedOver p.table f.scope f.refs.names).foldl Frame.addRef f') rest
        table := p.table.modifyScope f.scope fun s =>
          { s with
            upvars := (classify p.table f.scope f.refs.names f.captured).1
            freevars := (classify p.table f.scope f.refs.names f.captured).2 } } := by
  simp only [exitContext, hf, foldl_onInnermost]

/-- The way out of a context. -/
theorem finish_context (tracking : Bool) (hn : n.kind.isContext = true) {f : Frame}
    {rest : List Frame}
    (hf : p.frames = f :: rest) :
    (p.finish tracking n).frames =
        onInnermost (fun f' => (handedOver p.table f.scope f.refs.names).foldl Frame.addRef f')
          rest ∧
      (p.finish tracking n).table.SameScopes (p.table.modifyScope f.scope fun s =>
        { s with
          upvars := (classify p.table f.scope f.refs.names f.captured).1
          freevars := (classify p.table f.scope f.refs.names f.captured).2 }) := by
  have hclose : (p.closeBlock tracking n).frames =
      { f with blocks := f.blocks.drop (ownBlocks tracking n).length } :: rest := by
    rw [closeBlock_eq, hf, onInnermost]
  have htable : (p.closeBlock tracking n).table = p.table := by rw [closeBlock_eq]
  simp only [Pass.finish, hn, if_true, exitContext_eq hclose, htable]
  exact sameScopes_exit _ n

/-! ## Entries of nodes -/

theorem exitLabel?_congr {table table' : ScopeTable} (h : table.info = table'.info) (n : Node) :
    exitLabel? table n = exitLabel? table' n := by
  have hname : table.srcName? = table'.srcName? := by
    funext id
    rw [ScopeTable.srcName?, ScopeTable.srcName?, h]
  unfold exitLabel?
  rw [hname]

theorem info_modifyInnermost (p : Pass) (f : FunctionScope → FunctionScope) :
    (p.modifyInnermost f).info = p.table.info := by
  unfold modifyInnermost
  split <;> rfl

/-- Once a node is reached, the way into it changes its strictness and its scope in its entry, and
    no other entry. -/
theorem map_info_begin {α : Type} {get : NodeInfo → α}
    (hstrict : ∀ i, get { i with strict := true } = get i)
    (hscope : ∀ i id, get { i with scope := some id } = get i)
    (p : Pass) (tracking : Bool) (parent : Option Node) (n : Node) :
    (p.begin tracking parent n).table.info.map get = (p.enter n).table.info.map get := by
  have hcontext (q : Pass) :
      (q.enterContext tracking n).table.info.map get = q.table.info.map get := by
    have hpush (s : FunctionScope) : (q.table.pushScope s).info.map get = q.table.info.map get :=
      ScopeTable.map_info_modifyInfo fun i => hscope i _
    rw [table_enterContext]
    dsimp only
    split
    · exact (ScopeTable.map_info_modifyInfo hstrict).trans (hpush _)
    · exact hpush _
  simp only [Pass.begin, openBlock_eq, declare_eq]
  split
  · rw [hcontext, info_modifyInnermost]
  · rw [info_modifyInnermost]

/-- Of the entries of nodes, the way out of a node changes what its label takes. -/
theorem info_finish (p : Pass) (tracking : Bool) (n : Node) :
    (p.finish tracking n).table.info = (p.exit n).table.info := by
  have hcontext (q : Pass) : q.exitContext.table.info = q.table.info := by
    unfold exitContext
    split <;> rfl
  have hexit {q q' : Pass} (h : q.table.info = q'.table.info) :
      (q.exit n).table.info = (q'.exit n).table.info := by
    unfold Pass.exit
    rw [exitLabel?_congr h]
    split
    · simp only [setSrcName, ScopeTable.modifyInfo, h]
    · exact h
  refine hexit ?_
  rw [closeBlock_eq]
  split
  · rw [hcontext]
  · rfl

end Pass

end Scope

end ScriptSandbox
