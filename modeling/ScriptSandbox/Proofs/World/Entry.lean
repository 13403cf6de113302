import ScriptSandbox.World.Wrapping

/-
  The ways in, with a realm and without.

  `fromHost` and `fromHostIn` go through a host value on their own, and only the latter can fail.
  With a realm they do the same (`fromHostIn_some`). Without one, `fromHostIn` does the same as with
  any realm as long as all host objects are bookmarks (`fromHostIn_none_of_bookmarks`), and fails at
  the first one that is not (`fromHostIn_none_of_find`). It makes texts and arrays on the way but no
  wrappers. That follows from the walk over the host value in `Admits.fromHostIn`, which serves for
  every relation between worlds that allows for what is made on the way; `AdmitsLinks.guarded` is
  the same walk for a value that enters guarded.
-/

namespace ScriptSandbox.World

variable {E : Type} {realm? : Option RealmId}

/-! ## What a value leaves behind -/

/-- The relation between worlds allows for all that a value makes on its way in: texts, arrays and,
    with a realm, bridges. -/
structure Admits (realm? : Option RealmId) (R : World E → World E → Prop) : Prop where
  refl : ∀ w, R w w
  trans : ∀ {u v w}, R u v → R v w → R u w
  text : ∀ s w, R w (w.newString s).2
  array : ∀ elements w, R w (w.newArray elements).2
  bridge : ∀ {realm}, realm? = some realm → ∀ n w, R w (w.bridge realm n).2

/-- Without a realm there are no bridges to allow for. -/
theorem Admits.none {R : World E → World E → Prop} (refl : ∀ w, R w w)
    (trans : ∀ {u v w}, R u v → R v w → R u w) (text : ∀ s w, R w (w.newString s).2)
    (array : ∀ elements w, R w (w.newArray elements).2) : Admits .none R :=
  ⟨refl, trans, text, array, nofun⟩

/-- No realm, no wrapper and nothing of the embedding is changed. -/
structure SameWrappers (w w' : World E) : Prop where
  realms : w'.realms = w.realms
  bridges : w'.bridges = w.bridges
  links : w'.links = w.links
  embedding : w'.embedding = w.embedding

theorem SameWrappers.refl (w : World E) : SameWrappers w w := ⟨rfl, rfl, rfl, rfl⟩

theorem SameWrappers.trans {u v w : World E} (h : SameWrappers u v) (h' : SameWrappers v w) :
    SameWrappers u w :=
  ⟨h'.realms.trans h.realms, h'.bridges.trans h.bridges, h'.links.trans h.links,
    h'.embedding.trans h.embedding⟩

theorem sameWrappers_newString (s : String) (w : World E) : SameWrappers w (w.newString s).2 := by
  unfold newString newText
  by_cases hs : s = "" <;> simp only [hs, if_true, if_false] <;> exact ⟨rfl, rfl, rfl, rfl⟩

/-- The relation between worlds allows for all that a guarded value makes on its way in: texts,
    arrays and links. -/
structure AdmitsLinks (realm : RealmId) (R : World E → World E → Prop) : Prop where
  refl : ∀ w, R w w
  trans : ∀ {u v w}, R u v → R v w → R u w
  text : ∀ s w, R w (w.newString s).2
  array : ∀ elements w, R w (w.newArray elements).2
  link : ∀ n w, R w (w.newestLink realm n).2

section Guarded

variable {realm : RealmId} {R : World E → World E → Prop}

mutual

theorem AdmitsLinks.guarded (hR : AdmitsLinks realm R) :
    ∀ (h : HostValue) (w : World E), R w (w.link realm h).2
  | .undefined, w | .null, w | .boolean _, w | .number _, w => hR.refl w
  | .string s, w => hR.text s w
  | .array items, w => hR.trans (hR.guardedAll items w) (hR.array _ _)
  | .object n, w => by
    unfold World.link
    split
    · exact hR.refl w
    · split
      · exact hR.refl w
      · exact hR.link n w

theorem AdmitsLinks.guardedAll (hR : AdmitsLinks realm R) :
    ∀ (hs : List HostValue) (w : World E), R w (World.linkAll realm hs w).2
  | [], w => hR.refl w
  | h :: rest, w => hR.trans (hR.guarded h w) (hR.guardedAll rest _)

end

end Guarded

variable [Embedding E] {R : World E → World E → Prop}

mutual

theorem Admits.fromHostIn (hR : Admits realm? R) :
    ∀ (h : HostValue) (w : World E), R w (w.fromHostIn realm? h).2
  | .undefined, w | .null, w | .boolean _, w | .number _, w => hR.refl w
  | .string s, w => hR.text s w
  | .array items, w => by
    have hall := hR.fromHostAllIn items w
    unfold World.fromHostIn
    split
    · next vs w' hr =>
      rw [hr] at hall
      exact hR.trans hall (hR.array _ w')
    · next e w' hr =>
      rw [hr] at hall
      exact hall
  | .object n, w => by
    unfold World.fromHostIn
    split
    · exact hR.refl w
    · exact hR.bridge rfl n w
    · exact hR.refl w

theorem Admits.fromHostAllIn (hR : Admits realm? R) :
    ∀ (hs : List HostValue) (w : World E), R w (World.fromHostAllIn realm? hs w).2
  | [], w => hR.refl w
  | h :: rest, w => by
    have hfirst := hR.fromHostIn h w
    unfold World.fromHostAllIn
    split
    · next e w' hr =>
      rw [hr] at hfirst
      exact hfirst
    · next v w' hr =>
      rw [hr] at hfirst
      have hrest := hR.trans hfirst (hR.fromHostAllIn rest w')
      split <;> next hr' => rw [hr'] at hrest; exact hrest

end

/-- Without a realm no wrapper is made. -/
theorem sameWrappers_fromHostIn_none (h : HostValue) (w : World E) :
    SameWrappers w (w.fromHostIn none h).2 :=
  (Admits.none .refl .trans sameWrappers_newString fun _ _ => ⟨rfl, rfl, rfl, rfl⟩).fromHostIn h w

/-! ## With a realm -/

mutual

theorem fromHostIn_some (realm : RealmId) : ∀ (h : HostValue) (w : World E),
    w.fromHostIn (some realm) h = (.ok (w.fromHost realm h).1, (w.fromHost realm h).2)
  | .undefined, _ | .null, _ | .boolean _, _ | .number _, _ | .string _, _ => rfl
  | .array items, w => by
    rw [fromHostIn, fromHostAllIn_some realm items w]
    rfl
  | .object n, w => by
    unfold fromHostIn fromHost
    cases n.bookmarked? <;> rfl

theorem fromHostAllIn_some (realm : RealmId) : ∀ (hs : List HostValue) (w : World E),
    fromHostAllIn (some realm) hs w = (.ok (fromHostAll realm hs w).1, (fromHostAll realm hs w).2)
  | [], _ => rfl
  | h :: rest, w => by
    rw [fromHostAllIn, fromHostIn_some realm h w]
    simp only [fromHostAllIn_some realm rest]
    rfl

end

/-! ## Without a realm -/

mutual

/-- Bookmarks need no realm. -/
theorem fromHostIn_none_of_bookmarks : ∀ (h : HostValue) (w : World E),
    (∀ n ∈ h.natives, n.bookmarked?.isNone = false) → w.fromHostIn none h = w.fromHostIn realm? h
  | .undefined, _, _ | .null, _, _ | .boolean _, _, _ | .number _, _, _ | .string _, _, _ => rfl
  | .array items, w, hmarks => by
    rw [fromHostIn, fromHostIn, fromHostAllIn_none_of_bookmarks items w hmarks]
  | .object n, w, hmarks => by
    have hmark : n.bookmarked?.isNone = false := hmarks n List.mem_cons_self
    cases hv : n.bookmarked? with
    | none =>
      rw [hv] at hmark
      cases hmark
    | some v => simp only [fromHostIn, hv]

theorem fromHostAllIn_none_of_bookmarks : ∀ (hs : List HostValue) (w : World E),
    (∀ n ∈ HostValue.nativesOfAll hs, n.bookmarked?.isNone = false) →
    fromHostAllIn none hs w = fromHostAllIn realm? hs w
  | [], _, _ => rfl
  | h :: rest, w, hmarks => by
    rw [HostValue.nativesOfAll, List.forall_mem_append] at hmarks
    simp only [fromHostAllIn, fromHostIn_none_of_bookmarks h w hmarks.1,
      fromHostAllIn_none_of_bookmarks rest _ hmarks.2]

end

/-- The text of a host object that is no bookmark is up to the object. -/
theorem display_congr {n : Native} (hn : n.bookmarked?.isNone = true) {w w' : World E}
    (he : w'.embedding = w.embedding) : w'.display n = w.display n := by
  cases n with
  | error serial name message => rfl
  | bookmark serial target => cases hn
  | hosted id => simp only [display, nativeText, he]

mutual

/-- The first host object that is no bookmark needs a realm. -/
theorem fromHostIn_none_of_find : ∀ (h : HostValue) (w : World E) {n : Native},
    h.natives.find? (·.bookmarked?.isNone) = some n →
    (w.fromHostIn none h).1 = .error ⟨w.display n⟩
  | .array items, w, n, hfind => by
    have hall := fromHostAllIn_none_of_find items w hfind
    rw [fromHostIn]
    generalize fromHostAllIn none items w = r at hall
    obtain ⟨_ | _, _⟩ := r
    · cases hall
      rfl
    · cases hall
  | .object m, w, n, hfind => by
    cases hm : m.bookmarked? with
    | none =>
      obtain rfl : m = n := by simpa [HostValue.natives, hm] using hfind
      simp only [fromHostIn, hm]
    | some v => simp [HostValue.natives, hm] at hfind

theorem fromHostAllIn_none_of_find : ∀ (hs : List HostValue) (w : World E) {n : Native},
    (HostValue.nativesOfAll hs).find? (·.bookmarked?.isNone) = some n →
    (fromHostAllIn none hs w).1 = .error ⟨w.display n⟩
  | h :: rest, w, n, hfind => by
    rw [HostValue.nativesOfAll, List.find?_append] at hfind
    rw [fromHostAllIn]
    cases hfirst : h.natives.find? (·.bookmarked?.isNone) with
    | some m =>
      rw [hfirst, Option.some_or] at hfind
      obtain rfl := Option.some_inj.mp hfind
      have herror := fromHostIn_none_of_find h w hfirst
      generalize w.fromHostIn none h = r at herror
      obtain ⟨_ | _, _⟩ := r
      · cases herror
        rfl
      · cases herror
    | none =>
      rw [hfirst, Option.none_or] at hfind
      have hmarks : ∀ m ∈ h.natives, m.bookmarked?.isNone = false := fun m hm =>
        Bool.eq_false_iff.mpr (List.find?_eq_none.mp hfirst m hm)
      have hok := (fromHostIn_none_of_bookmarks h w hmarks).trans (fromHostIn_some 0 h w)
      have hsame := sameWrappers_fromHostIn_none h w
      have herror := fromHostAllIn_none_of_find rest (w.fromHostIn none h).2 hfind
      rw [display_congr (List.find?_some (p := fun m : Native => m.bookmarked?.isNone) hfind)
        hsame.embedding] at herror
      rw [hok] at herror ⊢
      dsimp only at herror ⊢
      generalize fromHostAllIn none rest (w.fromHost 0 h).2 = r at herror
      obtain ⟨_ | _, _⟩ := r
      · cases herror
        rfl
      · cases herror

end

/-- With a realm, `fromHostIn` gives the value that `fromHost` gives, with the same wrappers and
    allocations. Without one it fails at the first host object that is no bookmark, by its text. If
    there is none it gives the value that `fromHost` gives in any realm. No cache and no wrapper is
    touched then. -/
theorem fromHostIn_exact (h : HostValue) (w : World E) :
    (∀ realm, w.fromHostIn (some realm) h = (.ok (w.fromHost realm h).1, (w.fromHost realm h).2)) ∧
      SameWrappers w (w.fromHostIn none h).2 ∧
      match h.natives.find? (·.bookmarked?.isNone) with
      | some n => (w.fromHostIn none h).1 = .error ⟨w.display n⟩
      | none => ∀ realm,
        w.fromHostIn none h = (.ok (w.fromHost realm h).1, (w.fromHost realm h).2) ∧
          SameWrappers w (w.fromHost realm h).2 := by
  have hsame := sameWrappers_fromHostIn_none h w
  refine ⟨fun realm => fromHostIn_some realm h w, hsame, ?_⟩
  cases hfind : h.natives.find? (·.bookmarked?.isNone) with
  | some n => exact fromHostIn_none_of_find h w hfind
  | none =>
    intro realm
    have hmarks : ∀ m ∈ h.natives, m.bookmarked?.isNone = false := fun m hm =>
      Bool.eq_false_iff.mpr (List.find?_eq_none.mp hfind m hm)
    have heq := (fromHostIn_none_of_bookmarks h w hmarks).trans (fromHostIn_some realm h w)
    rw [heq] at hsame
    exact ⟨heq, hsame⟩

end ScriptSandbox.World
