import ScriptSandbox.Proofs.Scope.Handover

/-
  The owner of a name.

  The owner of a name at a site is the first context on the way outward that answers for it
  (`OwnedBy`). Seen from a context around the site, either the name escapes the context, and then
  its owner is the one that it has around the context, or the owner is the context or one below it
  (`owned_below`). Where every name is bound on entry, what a context binds throughout does not
  depend on how far the walk has come (`bindsAt_iff`); bodies and function declarations of the usual
  shape are enough for that (`boundOnEntry`).
-/

namespace ScriptSandbox.Scope

open Syntax

variable {d : Document} {t : Tree} {tracking : Bool} {k : Nat} {above path : List Node}
  {p : Pass} {n c o o' : Node} {name : String} {id : NodeId} {table table' : ScopeTable}
  {e : Enclosure} {es inner beyond : List Enclosure}

/-! ## Owners -/

/-- The first context on the way outward that answers for a name. -/
inductive OwnedBy (tracking : Bool) (table : ScopeTable) (name : String) :
    List Enclosure → Node → Prop
  | here {e : Enclosure} {es : List Enclosure} (h : e.Owns tracking table name) :
    OwnedBy tracking table name (e :: es) e.context
  | outward {e : Enclosure} {es : List Enclosure} {o : Node} (h : ¬ e.Owns tracking table name)
    (h' : OwnedBy tracking table name es o) : OwnedBy tracking table name (e :: es) o

theorem OwnedBy.unique (h : OwnedBy tracking table name es o)
    (h' : OwnedBy tracking table name es o') : o = o' := by
  induction h with
  | here h =>
    cases h' with
    | here => rfl
    | outward hnot => exact absurd h hnot
  | outward hnot _ ih =>
    cases h' with
    | here h => exact absurd h hnot
    | outward _ h' => exact ih h'

theorem exists_ownedBy_iff :
    (∃ o, OwnedBy tracking table name es o) ↔ ∃ e ∈ es, e.Owns tracking table name := by
  constructor
  · rintro ⟨o, h⟩
    induction h with
    | here h => exact ⟨_, List.mem_cons_self, h⟩
    | outward _ _ ih =>
      obtain ⟨e, he, h⟩ := ih
      exact ⟨e, List.mem_cons_of_mem _ he, h⟩
  · rintro ⟨e, he, h⟩
    induction es with
    | nil => cases he
    | cons e' es ih =>
      by_cases h' : e'.Owns tracking table name
      · exact ⟨_, .here h'⟩
      · rcases List.mem_cons.mp he with rfl | he
        · exact absurd h h'
        · obtain ⟨o, ho⟩ := ih he
          exact ⟨o, .outward h' ho⟩

theorem OwnedBy.exists_mem (h : OwnedBy tracking table name es o) : ∃ e ∈ es, e.context = o := by
  induction h with
  | here => exact ⟨_, List.mem_cons_self, rfl⟩
  | outward _ _ ih =>
    obtain ⟨e, he, h⟩ := ih
    exact ⟨e, List.mem_cons_of_mem _ he, h⟩

/-- The owner of a name that escapes a context is the one that it has around the context. -/
theorem Escapes.ownedBy_iff (h : Escapes tracking table name es id beyond) :
    OwnedBy tracking table name es o ↔ OwnedBy tracking table name beyond o := by
  have step {e : Enclosure} {es : List Enclosure} (he : ¬ e.Owns tracking table name) :
      OwnedBy tracking table name (e :: es) o ↔ OwnedBy tracking table name es o :=
    ⟨fun h => by cases h with | here h => exact absurd h he | outward _ h => exact h, .outward he⟩
  induction h with
  | leaves h => exact step h
  | passes h _ ih => exact (step h).trans ih

theorem Escapes.not_bindsAt (h : Escapes tracking table name es id beyond) :
    ¬ table.BindsAt id name := by
  induction h with
  | leaves h => exact (not_or.mp h).2
  | passes _ _ ih => exact ih

theorem escapes_or_owned (inner : List Enclosure) :
    Escapes tracking table name (inner ++ e :: beyond) e.context.id beyond ∨
      ∃ o, OwnedBy tracking table name (inner ++ e :: beyond) o ∧
        ∃ x ∈ inner ++ [e], x.context = o := by
  induction inner with
  | nil =>
    by_cases he : e.Owns tracking table name
    · exact .inr ⟨_, .here he, e, by simp, rfl⟩
    · exact .inl (.leaves he)
  | cons x inner ih =>
    by_cases hx : x.Owns tracking table name
    · exact .inr ⟨_, .here hx, x, by simp, rfl⟩
    · rcases ih with h | ⟨o, h, y, hy, ho⟩
      · exact .inl (.passes hx h)
      · exact .inr ⟨o, .outward hx h, y, List.mem_cons_of_mem _ hy, ho⟩

/-- The owner of the name of a reference below a context, seen from the context. -/
theorem owned_below (ht : Tree.ofDocument d = .ok t) (hc : (c, above) ∈ t.sites)
    (hk : c.kind.isContext = true) {r : Node} (hr : (r, path) ∈ c.sites above)
    (href : r.reference? = some name) :
    Escapes tracking table name (enclosures path) c.id (enclosures above) ∨
      ∃ o, OwnedBy tracking table name (enclosures path) o ∧ o ∉ above := by
  rcases Node.eq_append_of_mem_sites hr with ⟨rfl, -⟩ | ⟨between, rfl⟩
  · simp [Pass.reference?_of_isContext hk] at href
  · obtain ⟨inner, e, he, rfl, hinner⟩ := enclosures_append hk between above
    rw [he]
    refine (escapes_or_owned inner).imp_right fun ⟨o, howned, x, hx, hxo⟩ => ⟨o, howned, ?_⟩
    have ho : o ∈ between ++ [e.context] := by
      rw [List.mem_append, List.mem_singleton] at hx ⊢
      exact hxo ▸ hx.imp (hinner x) (congrArg _)
    obtain ⟨b₁, b₂, hb⟩ := List.append_of_mem ho
    have hsite : (r, b₁ ++ o :: (b₂ ++ above)) ∈ t.sites := by
      have hpath : b₁ ++ o :: (b₂ ++ above) = between ++ e.context :: above := by
        rw [← List.cons_append, ← List.append_assoc, ← hb, List.append_assoc, List.singleton_append]
      exact hpath ▸ Node.sites_subset hc hr
    exact fun hmem => Nat.lt_irrefl _ (Tree.id_lt_of_mem_around ht
      (Tree.mem_sites_of_append hsite).1 o (List.mem_append_right _ hmem))

section Below

variable (ht : Tree.ofDocument d = .ok t) (hc : (c, above) ∈ t.sites)
  (hk : c.kind.isContext = true) {r : Node} (hr : (r, path) ∈ c.sites above)
  (href : r.reference? = some name)

include ht hc hk hr href

/-- A reference below a context has an owner beyond it just when its name escapes the context and
    is owned around it. -/
theorem owned_beyond_iff : (∃ o ∈ above, OwnedBy tracking table name (enclosures path) o) ↔
    Escapes tracking table name (enclosures path) c.id (enclosures above) ∧
      ∃ e ∈ enclosures above, e.Owns tracking table name := by
  constructor
  · rintro ⟨o, ho, howned⟩
    rcases owned_below ht hc hk hr href with hescapes | ⟨o', howned', hnot⟩
    · exact ⟨hescapes, exists_ownedBy_iff.mp ⟨o, hescapes.ownedBy_iff.mp howned⟩⟩
    · exact absurd (howned.unique howned' ▸ ho) hnot
  · rintro ⟨hescapes, howns⟩
    obtain ⟨o, howned⟩ := exists_ownedBy_iff.mpr howns
    exact ⟨o, (exists_enclosure_iff.mp howned.exists_mem).1, hescapes.ownedBy_iff.mpr howned⟩

/-- A reference below a context has no owner just when its name escapes the context and is not owned
    around it. -/
theorem not_owned_iff : (∀ o, ¬ OwnedBy tracking table name (enclosures path) o) ↔
    Escapes tracking table name (enclosures path) c.id (enclosures above) ∧
      ∀ e ∈ enclosures above, ¬ e.Owns tracking table name := by
  have hbeyond (hescapes : Escapes tracking table name (enclosures path) c.id (enclosures above)) :
      (∀ o, ¬ OwnedBy tracking table name (enclosures path) o) ↔
        ∀ e ∈ enclosures above, ¬ e.Owns tracking table name := by
    have hnone : (¬ ∃ o, OwnedBy tracking table name (enclosures above) o) ↔ _ :=
      not_congr exists_ownedBy_iff
    simpa [hescapes.ownedBy_iff] using hnone
  constructor
  · intro hnone
    have hescapes := (owned_below ht hc hk hr href).resolve_right fun ⟨o, h, _⟩ => hnone o h
    exact ⟨hescapes, (hbeyond hescapes).mp hnone⟩
  · exact fun ⟨hescapes, hnone⟩ => (hbeyond hescapes).mpr hnone

end Below

/-- A name owned by a block is owned. -/
theorem BlockOwned.exists_owns (h : BlockOwned tracking table name es) :
    ∃ e ∈ es, e.Owns tracking table name := by
  induction es with
  | nil => exact h.elim
  | cons e es ih =>
    rcases h with h | ⟨-, h⟩
    · exact ⟨e, List.mem_cons_self, .inl h⟩
    · obtain ⟨e', he, h⟩ := ih h
      exact ⟨e', List.mem_cons_of_mem _ he, h⟩

/-- A name that neither a block nor a context owns has no owner. -/
theorem not_owns_of_not_blockOwned (h : ¬ BlockOwned tracking table name es)
    (hb : ∀ e ∈ es, ¬ table.BindsAt e.context.id name) :
    ∀ e ∈ es, ¬ e.Owns tracking table name := by
  induction es with
  | nil => simp
  | cons e es ih =>
    obtain ⟨hbinds, hrest⟩ := List.forall_mem_cons.mp hb
    obtain ⟨hblock, howned⟩ := not_or.mp h
    exact List.forall_mem_cons.mpr ⟨not_or.mpr ⟨hblock, hbinds⟩,
      ih (fun h => howned ⟨hbinds, h⟩) hrest⟩

/-! ## Tables that agree -/

section Congr

variable (hsame : ∀ e ∈ es, (table.BindsAt e.context.id name ↔ table'.BindsAt e.context.id name))

include hsame

theorem BlockOwned.congr :
    BlockOwned tracking table name es ↔ BlockOwned tracking table' name es := by
  induction es with
  | nil => rfl
  | cons e es ih =>
    obtain ⟨he, hrest⟩ := List.forall_mem_cons.mp hsame
    exact or_congr_right (and_congr (not_congr he) (ih hrest))

theorem Escapes.congr :
    Escapes tracking table name es id beyond ↔ Escapes tracking table' name es id beyond := by
  induction es with
  | nil => exact ⟨nofun, nofun⟩
  | cons e es ih =>
    obtain ⟨he, hrest⟩ := List.forall_mem_cons.mp hsame
    rw [Escapes.cons_iff, Escapes.cons_iff, Enclosure.Owns, Enclosure.Owns, he, ih hrest]

end Congr

/-! ## Bindings settled on entry -/

/-- What a context binds throughout, read off its node: what it binds by itself, what is hoisted in
    it, and the arguments of a function with a `function` keyword. -/
def BindsThroughout (c : Node) (name : String) : Prop :=
  (BindsItself c name ∨ ∃ decl ∈ hoisted c, decl.binding = .var ∧ decl.name = name) ∨
    (c.kind = .functionDeclaration ∨ c.kind = .functionExpression) ∧ name = "arguments"

theorem contains_entered (parent : Option ScopeId) (c : Node) (name : String) :
    (Pass.entered tracking parent c).vars.contains name = true ↔
      BindsItself c name ∨ ∃ decl ∈ hoisted c, decl.binding = .var ∧ decl.name = name := by
  obtain ⟨hself, hnot⟩ := find?_vars_freshScope parent c name
  unfold Table.contains
  rcases FunctionScope.find?_foldl_recordIn tracking .var (hoisted c)
    (Pass.freshScope parent c) name with ⟨-, decl, hmem, hb, hname, hfind⟩ | ⟨hnone, hfind⟩
  · exact iff_of_true (Option.isSome_iff_exists.mpr ⟨_, hfind⟩) (.inr ⟨decl, hmem, hb, hname⟩)
  · have hhoisted : ¬ ∃ decl ∈ hoisted c, decl.binding = .var ∧ decl.name = name :=
      fun ⟨decl, hmem, hb, hname⟩ => hnone trivial decl hmem hb hname
    refine (Iff.of_eq (congrArg (Option.isSome · = true) hfind)).trans ?_
    unfold FunctionScope.tableOf
    by_cases h : BindsItself c name
    · simp [hself h, h]
    · simp [hnot h, h, hhoisted]

/-- Every name that a context binds throughout is bound as soon as it is entered. -/
def BoundOnEntry (t : Tree) : Prop :=
  ∀ c m path name, (m, path) ∈ t.sites → nearestContext? path = some c →
    Makes .var path.head? m name →
      BindsItself c name ∨ ∃ decl ∈ hoisted c, decl.binding = .var ∧ decl.name = name

/-- Where bodies and function declarations are as usual, hoisting misses nothing. -/
theorem boundOnEntry (ht : Tree.ofDocument d = .ok t) (hbodies : UsualBodies t)
    (hdirect : DirectFunctions t) : BoundOnEntry t := by
  intro c m path name hm hnear hmakes
  obtain ⟨hk, between, above, rfl, hbetween⟩ := List.find?_eq_some_iff_append.mp hnear
  exact .inr ⟨_, mem_hoisted ht hbodies hdirect hk hm (fun x hx => by simpa using hbetween x hx)
    hmakes, rfl, rfl⟩

section Settled

variable (hentry : BoundOnEntry t)

include hentry

/-- The variables of a context are those that it has when it is entered. -/
theorem contains_vars_iff {s : FunctionScope} (h : Tabled t tracking c k s) (name : String) :
    s.vars.contains name = true ↔
      BindsItself c name ∨ ∃ decl ∈ hoisted c, decl.binding = .var ∧ decl.name = name := by
  rcases h.tables .var trivial name with
    ⟨id, hfind, ⟨-, m, path, hm, -, hnear, hmakes⟩, -⟩ | ⟨-, hfind⟩
  · exact iff_of_true (Option.isSome_iff_exists.mpr ⟨id, hfind⟩)
      (hentry c m path name hm hnear hmakes)
  · exact (Iff.of_eq (congrArg (Option.isSome · = true) hfind)).trans (contains_entered _ c name)

/-- What a context binds throughout does not depend on how far the walk has come. -/
theorem bindsAt_iff (h : AllTabled t tracking k p) (hc : (c, above) ∈ t.sites)
    (hk : c.kind.isContext = true) (hlt : c.id < k) :
    p.table.BindsAt c.id name ↔ BindsThroughout c name := by
  obtain ⟨s, hs, htab⟩ := h c above hc hk hlt
  unfold ScopeTable.BindsAt ScopeTable.Has BindsThroughout
  rw [hs, ← contains_vars_iff hentry htab]
  simp only [Option.some.injEq, exists_eq_left', FunctionScope.binds_iff, htab.bindsArguments,
    Bool.or_eq_true, decide_eq_true_eq]

end Settled

end ScriptSandbox.Scope
