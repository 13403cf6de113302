import ScriptSandbox.Host.Basic

/-
  Identity caches.

  A cache remembers which wrapper was made for a host object, without keeping the wrapper alive:
  every operation is told which wrappers are alive. Dead entries stay until a purge; an insertion
  that finds the cache full purges it first and then sets the limit to twice what is left.
-/

namespace ScriptSandbox

/-- Wrappers by host object, and the number of entries at which an insertion sweeps. -/
structure IdentityCache where
  entries : List (NativeKey × Nat)
  sweepAt : Nat
deriving Repr

namespace IdentityCache

/-- The least number of entries at which an insertion sweeps. -/
def minSweep : Nat := 64

def empty : IdentityCache := ⟨[], minSweep⟩

instance : Inhabited IdentityCache := ⟨empty⟩

def lookup (key : NativeKey) : List (NativeKey × Nat) → Option Nat
  | [] => none
  | (k, wrapper) :: rest => if k = key then some wrapper else lookup key rest

/-- The live wrapper of a host object. -/
def find? (alive : Nat → Bool) (c : IdentityCache) (key : NativeKey) : Option Nat :=
  (lookup key c.entries).filter alive

/-- The cache without its dead entries, and how many there were. -/
def purge (alive : Nat → Bool) (c : IdentityCache) : IdentityCache × Nat :=
  let kept := c.entries.filter fun e => alive e.2
  ({ c with entries := kept }, c.entries.length - kept.length)

/-- The cache before an insertion: swept if it is full. -/
def makeRoom (alive : Nat → Bool) (c : IdentityCache) : IdentityCache :=
  if c.sweepAt ≤ c.entries.length then
    let swept := (c.purge alive).1
    { swept with sweepAt := max (2 * swept.entries.length) minSweep }
  else c

/-- Remember a wrapper; an older entry of the host object is replaced. -/
def insert (alive : Nat → Bool) (c : IdentityCache) (key : NativeKey) (wrapper : Nat) :
    IdentityCache :=
  let c := c.makeRoom alive
  { c with entries := (key, wrapper) :: c.entries.filter fun e => e.1 ≠ key }

theorem mem_makeRoom {alive : Nat → Bool} {c : IdentityCache} {e : NativeKey × Nat}
    (h : e ∈ (c.makeRoom alive).entries) : e ∈ c.entries := by
  unfold makeRoom at h
  split at h
  · exact (List.mem_filter.mp h).1
  · exact h

theorem mem_insert {alive : Nat → Bool} {c : IdentityCache} {key : NativeKey} {wrapper : Nat}
    {e : NativeKey × Nat} (h : e ∈ (c.insert alive key wrapper).entries) :
    e = (key, wrapper) ∨ e ∈ c.entries := by
  rcases List.mem_cons.mp h with h | h
  · exact .inl h
  · exact .inr (mem_makeRoom (List.mem_filter.mp h).1)

theorem mem_of_lookup {key : NativeKey} {entries : List (NativeKey × Nat)} {wrapper : Nat}
    (h : lookup key entries = some wrapper) : (key, wrapper) ∈ entries := by
  induction entries with
  | nil => cases h
  | cons e rest ih =>
    obtain ⟨k, x⟩ := e
    simp only [lookup] at h
    split at h
    · next hk =>
      cases h
      exact hk ▸ List.mem_cons_self
    · exact List.mem_cons_of_mem _ (ih h)

/-- The number of live entries. -/
def liveCount (alive : Nat → Bool) (c : IdentityCache) : Nat :=
  (c.entries.filter fun e => alive e.2).length

end IdentityCache

end ScriptSandbox
