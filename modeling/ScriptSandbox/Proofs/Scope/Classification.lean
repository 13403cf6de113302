import ScriptSandbox.Proofs.Scope.Capture
import ScriptSandbox.Proofs.Scope.Owner

/-
  Captured and free names.

  Every name that a context passes on comes from a reference below it whose name escapes it. The
  names in the frame of an open context say more: a captured name is owned by a block around the
  context, and a referenced one that the context does not bind itself is not (`Traced`). So where
  bodies and function declarations are as usual, a context lists as captured exactly the names of
  references that escape it and have an owner, and as free those that have none
  (`classification_exact`), and the finished table resolves them so (`resolves_as_classified`).
-/

namespace ScriptSandbox.Scope

open Syntax

variable {d : Document} {t : Tree} {tracking : Bool} {k : Nat} {around above path : List Node}
  {p : Pass} {n c : Node} {name : String} {table : ScopeTable} {e : Enclosure} {es : List Enclosure}

/-- The nearest context around a site, found by its number. -/
theorem enclosing_site (ht : Tree.ofDocument d = .ok t) (hn : (n, around) ∈ t.sites)
    (hc : (c, above) ∈ t.sites) (h : (nearestContext? around).map (·.id) = some c.id) :
    ∃ e, enclosures around = e :: enclosures above ∧ e.context = c ∧
      (n, around) ∈ c.sites above := by
  rw [← head?_enclosures] at h
  cases he : enclosures around with
  | nil => simp [he] at h
  | cons e es =>
    obtain ⟨between, above', rfl, rfl, -, -⟩ := enclosures_eq_cons he
    obtain ⟨hc', hnc⟩ := Tree.mem_sites_of_append hn
    cases Tree.site_unique ht hc' hc (by simpa [he] using h)
    exact ⟨e, rfl, rfl, hnc⟩

/-- A reference below a context has a name that escapes it. -/
def Escaping (tracking : Bool) (table : ScopeTable) (c : Node) (above : List Node)
    (name : String) : Prop :=
  ∃ r path, (r, path) ∈ c.sites above ∧ r.reference? = some name ∧
    Escapes tracking table name (enclosures path) c.id (enclosures above)

/-- Where the names of open contexts and of scopes come from. -/
structure Traced (t : Tree) (tracking : Bool) (table : ScopeTable) (p : Pass) : Prop where
  captured : ∀ c above name, (c, above) ∈ t.sites → c.kind.isContext = true →
    p.Captures c.id name → Escaping tracking table c above name ∧
      BlockOwned tracking table name (enclosures above)
  referred : ∀ c above name, (c, above) ∈ t.sites → c.kind.isContext = true →
    p.Refers c.id name → table.BindsAt c.id name ∨ Escaping tracking table c above name ∧
      ¬ BlockOwned tracking table name (enclosures above)
  upvars : ∀ c above name, (c, above) ∈ t.sites → c.kind.isContext = true →
    p.table.Has c.id (name ∈ ·.upvars) → Escaping tracking table c above name ∧
      ∃ e ∈ enclosures above, e.Owns tracking table name
  freevars : ∀ c above name, (c, above) ∈ t.sites → c.kind.isContext = true →
    p.table.Has c.id (name ∈ ·.freevars) → Escaping tracking table c above name ∧
      ∀ e ∈ enclosures above, ¬ e.Owns tracking table name

/-- The contexts reached so far bind throughout what they bind in a given table. -/
def Settled (t : Tree) (table : ScopeTable) (k : Nat) (p : Pass) : Prop :=
  ∀ c above name, (c, above) ∈ t.sites → c.kind.isContext = true → c.id < k →
    (p.table.BindsAt c.id name ↔ table.BindsAt c.id name)

/-- The contexts around a site have been reached before it. -/
theorem Settled.outside (name : String) (ht : Tree.ofDocument d = .ok t) (hs : Settled t table k p)
    (hn : (n, around) ∈ t.sites) (hle : n.id ≤ k) : ∀ e ∈ enclosures around,
      (p.table.BindsAt e.context.id name ↔ table.BindsAt e.context.id name) := by
  intro e he
  obtain ⟨hmem, hk⟩ := exists_enclosure_iff.mp ⟨e, he, rfl⟩
  obtain ⟨between, above, rfl, hc⟩ := Tree.exists_site_of_mem hn hmem
  have hlt := Tree.id_lt_of_mem_around ht hn _ hmem
  exact hs _ above name hc hk (Nat.lt_of_lt_of_le hlt hle)

namespace Traced

/-- At the start there is nothing to trace. -/
theorem start (t : Tree) (tracking : Bool) (table : ScopeTable) :
    Traced t tracking table ⟨[], .blank t.size⟩ := by
  have nothing {id : NodeId} {P : FunctionScope → Prop}
      (h : (ScopeTable.blank t.size).Has id P) : False := by
    obtain ⟨s, hs, -⟩ := h
    obtain ⟨i, hi, -⟩ := ScopeTable.functionScope?_eq_some.mp hs
    exact Nat.not_lt_zero _ ((Walking.start t tracking).linked id i hi).1
  have noFrame {id : NodeId} {P : Frame → Prop}
      (h : Pass.Holds ⟨[], .blank t.size⟩ id P) : False := by
    obtain ⟨f, hf, -⟩ := h
    cases hf
  exact ⟨fun _ _ _ _ _ h => (noFrame h).elim, fun _ _ _ _ _ h => (noFrame h).elim,
    fun _ _ _ _ _ h => (nothing h).elim, fun _ _ _ _ _ h => (nothing h).elim⟩

/-- A reference that no block owns, seen from the nearest context: if the context does not bind the
    name, it escapes. -/
theorem referred_next (hnot : ¬ BlockOwned tracking table name (e :: es))
    (hescaping : ¬ e.Owns tracking table name → Escaping tracking table e.context above name) :
    table.BindsAt e.context.id name ∨
      Escaping tracking table e.context above name ∧ ¬ BlockOwned tracking table name es := by
  obtain ⟨hblock, howned⟩ := not_or.mp hnot
  by_cases hb : table.BindsAt e.context.id name
  · exact .inl hb
  · exact .inr ⟨hescaping (not_or.mpr ⟨hblock, hb⟩), fun h => howned ⟨hb, h⟩⟩

theorem «begin» (ht : Tree.ofDocument d = .ok t) (hn : (n, around) ∈ t.sites)
    (h : Walking t tracking n.id around p) (hs : Settled t table n.id p)
    (htr : Traced t tracking table p) (parent : Option Node) :
    Traced t tracking table (p.begin tracking parent n) := by
  have hsame := fun name => hs.outside name ht hn (Nat.le_refl _)
  refine ⟨?captured, ?referred, ?upvars, ?freevars⟩
  case captured =>
    intro c above name hc hk hcaptured
    rcases (h.captures_begin ht hn parent).mp hcaptured with hold | ⟨href, beyond, hescapes, howned⟩
    · exact htr.captured c above name hc hk hold
    · rw [← hescapes.blockOwned_iff, BlockOwned.congr (hsame name)] at howned
      rw [Escapes.congr (hsame name)] at hescapes
      rw [hescapes.blockOwned_iff] at howned
      obtain ⟨between, c', above', rfl, hid, -, rfl⟩ := hescapes.site
      obtain ⟨hc', hnc⟩ := Tree.mem_sites_of_append hn
      cases Tree.site_unique ht hc' hc hid
      exact ⟨⟨n, _, hnc, href, hescapes⟩, howned⟩
  case referred =>
    intro c above name hc hk hreferred
    rcases (h.refers_begin ht hn parent).mp hreferred with hold | ⟨href, hnear, hnot⟩
    · exact htr.referred c above name hc hk hold
    · obtain ⟨e, he, rfl, hnc⟩ := enclosing_site ht hn hc hnear
      rw [BlockOwned.congr (hsame name), he] at hnot
      exact referred_next hnot fun hnot => ⟨n, around, hnc, href, he ▸ .leaves hnot⟩
  case upvars =>
    intro c above name hc hk hname
    have hold := h.has_of_begin ht hn parent (P := (name ∈ ·.upvars))
      (fun s s' hs => by rw [hs.upvars]) (fun _ => List.not_mem_nil) hc hk hname
    exact htr.upvars c above name hc hk hold
  case freevars =>
    intro c above name hc hk hname
    have hold := h.has_of_begin ht hn parent (P := (name ∈ ·.freevars))
      (fun s s' hs => by rw [hs.freevars]) (fun _ => List.not_mem_nil) hc hk hname
    exact htr.freevars c above name hc hk hold

theorem finish (ht : Tree.ofDocument d = .ok t) (hn : (n, around) ∈ t.sites) (hlt : n.id < k)
    (h : Walking t tracking k (n :: around) p) (hs : Settled t table k p)
    (htr : Traced t tracking table p) : Traced t tracking table (p.finish tracking n) := by
  cases hcontext : n.kind.isContext with
  | false =>
    have hholds {P : Frame → Prop} (hP : ∀ f blocks, P { f with blocks := blocks } ↔ P f)
        {id : NodeId} : (p.finish tracking n).Holds id P ↔ p.Holds id P :=
      Walking.holds_finish_inner hcontext hP
    have hne {id : NodeId} (hk : n.kind.isContext = true) : id ≠ n.id := by simp [hcontext] at hk
    refine ⟨fun c above name hc hk hname => ?_, fun c above name hc hk hname => ?_,
      fun c above name hc hk hname => ?_, fun c above name hc hk hname => ?_⟩
    · exact htr.captured c above name hc hk ((hholds fun _ _ => Iff.rfl).mp hname)
    · exact htr.referred c above name hc hk ((hholds fun _ _ => Iff.rfl).mp hname)
    · exact htr.upvars c above name hc hk ((h.has_finish_of_ne hne).mp hname)
    · exact htr.freevars c above name hc hk ((h.has_finish_of_ne hne).mp hname)
  | true =>
    have hself {name : String} (href : p.Refers n.id name) (hown : ¬ p.table.BindsAt n.id name) :
        Escaping tracking table n around name ∧
          ¬ BlockOwned tracking table name (enclosures around) :=
      (htr.referred n around name hn hcontext href).resolve_left
        (mt (hs n around name hn hcontext hlt).mpr hown)
    refine ⟨?captured, ?referred, ?upvars, ?freevars⟩
    case captured =>
      exact fun c above name hc hk hname =>
        htr.captured c above name hc hk ((h.captures_finish ht hn hcontext).mp hname).2
    case referred =>
      intro c above name hc hk hname
      rcases (h.refers_finish ht hn hcontext hlt).mp hname with ⟨-, hold⟩ | ⟨hnear, href, hown⟩
      · exact htr.referred c above name hc hk hold
      · obtain ⟨⟨r, path, hr, href, hescapes⟩, hnot⟩ := hself href hown
        obtain ⟨e, he, rfl, hnc⟩ := enclosing_site ht hn hc hnear
        rw [he] at hnot hescapes
        exact referred_next hnot fun hnot =>
          ⟨r, path, Node.sites_subset hnc hr, href, hescapes.next hnot⟩
    case upvars =>
      intro c above name hc hk hname
      by_cases hid : c.id = n.id
      · cases Tree.site_unique ht hc hn hid
        rcases (h.has_upvars_finish ht hn hcontext hlt).mp hname with
          hcaptured | ⟨href, hown, c', hc', hk', hb⟩
        · obtain ⟨hescaping, howned⟩ := htr.captured _ _ name hn hcontext hcaptured
          exact ⟨hescaping, howned.exists_owns⟩
        · obtain ⟨e, he, rfl⟩ := exists_enclosure_iff.mpr ⟨hc', hk'⟩
          exact ⟨(hself href hown).1, e, he,
            .inr ((hs.outside name ht hn (Nat.le_of_lt hlt) e he).mp hb)⟩
      · exact htr.upvars c above name hc hk ((h.has_finish_of_ne fun _ => hid).mp hname)
    case freevars =>
      intro c above name hc hk hname
      by_cases hid : c.id = n.id
      · cases Tree.site_unique ht hc hn hid
        obtain ⟨href, hfree⟩ := (h.has_freevars_finish ht hn hcontext hlt).mp hname
        obtain ⟨hescaping, hnot⟩ := hself href (hfree _ List.mem_cons_self hcontext)
        refine ⟨hescaping, not_owns_of_not_blockOwned hnot fun e he => ?_⟩
        obtain ⟨hmem, hk'⟩ := exists_enclosure_iff.mp ⟨e, he, rfl⟩
        rw [← hs.outside name ht hn (Nat.le_of_lt hlt) e he]
        exact hfree _ (List.mem_cons_of_mem _ hmem) hk'
      · exact htr.freevars c above name hc hk ((h.has_finish_of_ne fun _ => hid).mp hname)

end Traced

/-! ## The classification -/

section

variable (ht : Tree.ofDocument d = .ok t) (hentry : BoundOnEntry t)

include ht hentry

/-- Where names are bound on entry, bindings are settled all along the walk. -/
theorem settled (tracking : Bool) (h : AllTabled t tracking k p) :
    Settled t (annotate tracking t) k p := by
  intro c above name hc hk hlt
  obtain ⟨q, hq, -, -, hend⟩ := allTabled_annotate tracking ht
  rw [hq, bindsAt_iff hentry h hc hk hlt, bindsAt_iff hentry hend hc hk (Tree.id_lt_size ht hc)]

theorem traced_annotate (tracking : Bool) :
    ∃ p : Pass, annotate tracking t = p.table ∧ p.frames = [] ∧ Walking t tracking t.size [] p ∧
      Traced t tracking (annotate tracking t) p := by
  obtain ⟨p, hp, hframes, hw, -, htr⟩ := annotate_induct tracking
    (J := fun k _ p => AllTabled t tracking k p ∧ Traced t tracking (annotate tracking t) p) ht
    (fun hn hw ⟨htab, htr⟩ => ⟨htab.begin ht hn hw,
      htr.begin ht hn hw (settled ht hentry tracking htab) _⟩)
    (fun hn hlt hw ⟨htab, htr⟩ => ⟨htab.finish hw,
      htr.finish ht hn hlt hw (settled ht hentry tracking htab)⟩)
    ⟨.start t tracking _, .start t tracking _⟩
  exact ⟨p, hp, hframes, hw, htr⟩

end

/-- What is accounted for and escapes a context leads outward from it. -/
theorem outward_of_escapes {m : Node} {id : NodeId} {beyond : List Enclosure}
    (hcontexts : ∀ c above name, (c, above) ∈ t.sites → c.kind.isContext = true →
      table.Outward c.id name →
      ∀ e es, enclosures above = e :: es → table.Accounts tracking e name)
    (hm : (m, path) ∈ t.sites)
    (ha : ∀ e es, enclosures path = e :: es → table.Accounts tracking e name)
    (h : Escapes tracking table name (enclosures path) id beyond) : table.Outward id name := by
  generalize hes : enclosures path = es at h
  induction h generalizing m path with
  | leaves hnot => exact (ha _ _ hes).resolve_right hnot
  | passes hnot _ ih =>
    have hout := (ha _ _ hes).resolve_right hnot
    obtain ⟨between, above, rfl, rfl, hk, -⟩ := enclosures_eq_cons hes
    have hc := (Tree.mem_sites_of_append hm).1
    exact ih hc (hcontexts _ above _ hc hk hout) rfl

section

variable (ht : Tree.ofDocument d = .ok t) (hentry : BoundOnEntry t)
  (hc : (c, above) ∈ t.sites) (hk : c.kind.isContext = true)

include ht hentry hc hk

/-- A context lists the names that escape it: as captured where they have an owner, and as free
    where they have none. -/
theorem classified (tracking : Bool) :
    ∃ s, (annotate tracking t).functionScope? c.id = some s ∧ ∀ name,
      (name ∈ s.upvars ↔ Escaping tracking (annotate tracking t) c above name ∧
        ∃ e ∈ enclosures above, e.Owns tracking (annotate tracking t) name) ∧
      (name ∈ s.freevars ↔ Escaping tracking (annotate tracking t) c above name ∧
        ∀ e ∈ enclosures above, ¬ e.Owns tracking (annotate tracking t) name) := by
  obtain ⟨p, hp, -, hw, htr⟩ := traced_annotate ht hentry tracking
  obtain ⟨q, hq, -, hrefs, hcontexts⟩ := accounted_annotate tracking ht
  obtain ⟨s, hs, -⟩ := hw.owned c above hc hk (Tree.id_lt_size ht hc)
  rw [← hp] at hs
  have hhas {P : FunctionScope → Prop} (h : P s) : p.table.Has c.id P := hp ▸ ⟨s, hs, h⟩
  have hlisted {name : String} (h : Escaping tracking (annotate tracking t) c above name) :
      name ∈ s.upvars ∨ name ∈ s.freevars := by
    obtain ⟨r, path, hr, href, hescapes⟩ := h
    have hr := Node.sites_subset hc hr
    rw [hq] at hescapes hs
    obtain ⟨s', hs', h⟩ := outward_of_escapes hcontexts hr (hrefs r path name hr href) hescapes
    cases hs.symm.trans hs'
    exact h
  refine ⟨s, hs, fun name => ⟨⟨fun h => htr.upvars c above name hc hk (hhas h), ?_⟩,
    ⟨fun h => htr.freevars c above name hc hk (hhas h), ?_⟩⟩⟩
  · rintro ⟨hescaping, e, he, howns⟩
    refine (hlisted hescaping).resolve_right fun hfree => ?_
    exact (htr.freevars c above name hc hk (hhas hfree)).2 e he howns
  · rintro ⟨hescaping, hnot⟩
    refine (hlisted hescaping).resolve_left fun hup => ?_
    obtain ⟨e, he, howns⟩ := (htr.upvars c above name hc hk (hhas hup)).2
    exact hnot e he howns

/-- The finished table resolves names as a context lists them: free names are free, and no captured
    name is bound by the context itself. -/
theorem resolves_as_classified (tracking : Bool) :
    ∃ i s, (annotate tracking t).scopeId? c.id = some i ∧
      (annotate tracking t).scopes[i]? = some s ∧ ∀ name,
        (name ∈ s.freevars → (annotate tracking t).resolve i name = .free) ∧
        (name ∈ s.upvars → ∀ node, (annotate tracking t).resolve i name ≠ .own node) := by
  obtain ⟨p, hp, -, hw, -⟩ := traced_annotate ht hentry tracking
  obtain ⟨s, hs, hnames⟩ := classified ht hentry hc hk tracking
  obtain ⟨i, hi, hscope⟩ := ScopeTable.functionScope?_eq_some.mp hs
  have hlt := Tree.id_lt_size ht hc
  refine ⟨i, s, hi, hscope, fun name => ⟨fun hfree => ?_, fun hup node hown => ?_⟩⟩
  · obtain ⟨⟨r, path, -, -, hescapes⟩, hnot⟩ := (hnames name).2.mp hfree
    rw [hp] at hi hescapes hnot ⊢
    refine (hw.resolve_free_iff ht hc hk hlt hi name).mpr ?_
    refine List.forall_mem_cons.mpr ⟨fun _ => hescapes.not_bindsAt, fun c' hc' hk' hb => ?_⟩
    obtain ⟨e, he, rfl⟩ := exists_enclosure_iff.mpr ⟨hc', hk'⟩
    exact hnot e he (.inr hb)
  · obtain ⟨⟨r, path, -, -, hescapes⟩, -⟩ := (hnames name).1.mp hup
    rw [hp] at hi hescapes hown
    exact hescapes.not_bindsAt ((hw.resolve_own_iff ht hc hk hlt hi name).mp ⟨node, hown⟩)

end

theorem usualBodies_closure : UsualBodies closureTree := by
  have h : ∀ s ∈ closureTree.sites,
      (s.1.kind = .program ∨ s.1.kind = .blockStatement → s.1.child? "body" = none) ∧
      (s.1.kind.isFunction = true → s.1.list? "body" = none) := by decide
  exact fun n path hn => h (n, path) hn

theorem directFunctions_closure : DirectFunctions closureTree := by
  have h : ∀ s ∈ closureTree.sites, s.1.kind = .functionDeclaration →
      ∃ p ∈ s.2.head?, p.kind = .program := by decide
  intro n path hn hk
  obtain ⟨p, hp, hprogram⟩ := h (n, path) hn hk
  obtain ⟨rest, rfl⟩ := List.head?_eq_some_iff.mp hp
  exact ⟨p, rest, rfl, .inl hprogram⟩

theorem resolves_as_classified_closure :
    ∃ c above, (c, above) ∈ closureTree.sites ∧ c.kind = .functionExpression ∧
      ∃ i s, (annotate true closureTree).scopeId? c.id = some i ∧
        (annotate true closureTree).scopes[i]? = some s ∧ ∀ name,
          (name ∈ s.freevars → (annotate true closureTree).resolve i name = .free) ∧
          (name ∈ s.upvars → ∀ node, (annotate true closureTree).resolve i name ≠ .own node) := by
  have hinner : closureTree.sites[8] ∈ closureTree.sites := List.getElem_mem (by decide)
  exact ⟨_, _, hinner, by decide, resolves_as_classified ofDocument_closure
    (boundOnEntry ofDocument_closure usualBodies_closure directFunctions_closure) hinner
    (by decide) true⟩

/-- `function f() { g; } export function g() {}` -/
def exportDocument : Document :=
  syntaxDocument "Program" [("body", .array [
    functionDocument (some "f") [] [statementDocument (identifierDocument "g")],
    syntaxDocument "ExportNamedDeclaration" [("declaration", functionDocument (some "g") [] [])]])]

/-- `{ let x; (function () { x; { function x() {} } }); }` -/
def shadowDocument : Document :=
  syntaxDocument "Program" [("body", .array [
    blockDocument [
      declarationDocument "let" "x",
      statementDocument (functionDocument none [] [
        statementDocument (identifierDocument "x"),
        blockDocument [functionDocument (some "x") [] []]])]])]

/-- A function declaration that is no direct statement is bound only when it is reached. So a name
    can be listed as free before an enclosing context binds it, and as captured before the context
    itself does. -/
theorem late_functions_misclassified :
    (Tree.ofDocument exportDocument = .ok (treeOf exportDocument) ∧
      (annotate true (treeOf exportDocument)).scopes[1]?.map (·.freevars.names) = some ["g"] ∧
      (annotate true (treeOf exportDocument)).resolve 1 "g" = .outer 0 6) ∧
    (Tree.ofDocument shadowDocument = .ok (treeOf shadowDocument) ∧
      (annotate true (treeOf shadowDocument)).scopes[1]?.map (·.upvars.names) = some ["x"] ∧
      (annotate true (treeOf shadowDocument)).resolve 1 "x" = .own 10) :=
  ⟨⟨rfl, by decide +kernel, by decide +kernel⟩, ⟨rfl, by decide +kernel, by decide +kernel⟩⟩

/-- Where bodies and function declarations are as usual, the captured names of a context are those
    of the references below it with an owner around it, and its free names are those of the
    references below it with no owner. -/
theorem classification_exact (ht : Tree.ofDocument d = .ok t) (hbodies : UsualBodies t)
    (hdirect : DirectFunctions t) (hc : (c, above) ∈ t.sites) (hk : c.kind.isContext = true) :
    ∃ s, (annotate true t).functionScope? c.id = some s ∧ ∀ name,
      (name ∈ s.upvars ↔ ∃ r path, (r, path) ∈ c.sites above ∧ r.reference? = some name ∧
        ∃ o ∈ above, OwnedBy true (annotate true t) name (enclosures path) o) ∧
      (name ∈ s.freevars ↔ ∃ r path, (r, path) ∈ c.sites above ∧ r.reference? = some name ∧
        ∀ o, ¬ OwnedBy true (annotate true t) name (enclosures path) o) := by
  obtain ⟨s, hs, hnames⟩ := classified ht (boundOnEntry ht hbodies hdirect) hc hk true
  refine ⟨s, hs, fun name => ⟨(hnames name).1.trans ?_, (hnames name).2.trans ?_⟩⟩
  · constructor
    · rintro ⟨⟨r, path, hr, href, hescapes⟩, howns⟩
      exact ⟨r, path, hr, href, (owned_beyond_iff ht hc hk hr href).mpr ⟨hescapes, howns⟩⟩
    · rintro ⟨r, path, hr, href, howned⟩
      obtain ⟨hescapes, howns⟩ := (owned_beyond_iff ht hc hk hr href).mp howned
      exact ⟨⟨r, path, hr, href, hescapes⟩, howns⟩
  · constructor
    · rintro ⟨⟨r, path, hr, href, hescapes⟩, hnot⟩
      exact ⟨r, path, hr, href, (not_owned_iff ht hc hk hr href).mpr ⟨hescapes, hnot⟩⟩
    · rintro ⟨r, path, hr, href, hnone⟩
      obtain ⟨hescapes, hnot⟩ := (not_owned_iff ht hc hk hr href).mp hnone
      exact ⟨⟨r, path, hr, href, hescapes⟩, hnot⟩

theorem classification_exact_closure :
    ∃ c above, (c, above) ∈ closureTree.sites ∧ c.kind = .functionExpression ∧
      ∃ s, (annotate true closureTree).functionScope? c.id = some s ∧ ∀ name,
        (name ∈ s.upvars ↔ ∃ r path, (r, path) ∈ c.sites above ∧ r.reference? = some name ∧
          ∃ o ∈ above, OwnedBy true (annotate true closureTree) name (enclosures path) o) ∧
        (name ∈ s.freevars ↔ ∃ r path, (r, path) ∈ c.sites above ∧ r.reference? = some name ∧
          ∀ o, ¬ OwnedBy true (annotate true closureTree) name (enclosures path) o) := by
  have hinner : closureTree.sites[8] ∈ closureTree.sites := List.getElem_mem (by decide)
  exact ⟨_, _, hinner, by decide, classification_exact ofDocument_closure usualBodies_closure
    directFunctions_closure hinner (by decide)⟩

example : ((annotate true closureTree).functionScope? 8).map
    (fun s => (s.upvars.names, s.freevars.names)) = some (["kept", "seen"], ["missing"]) := by
  decide +kernel

end ScriptSandbox.Scope
