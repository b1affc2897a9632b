import OpenBinder.Lib.Keyed
import OpenBinder.Lib.Run
import Mathlib.Algebra.Group.Nat.Defs

/-!
# The generic cache

A cache of a limited size. An entry has the age of its last use, or the age of one that is never
purged, which is odd.

* `abstractLookup`, `abstractAdd`, `abstractRemove`: the calls.
* `CacheRun`, `step`: a run, with the time of the last use of every key and the size of what has
  been added last.
* `Observes`: the calls that do not go wrong.
-/

namespace OpenBinder

open Lib

/-- An entry; `0xFFFFFFFF` is the age of one that is never purged. -/
structure CacheEntry (T : Type) where
  age : BitVec 32
  data : T
deriving DecidableEq

/-- An entry that cannot be removed for another one. -/
def CacheEntry.IsPermanent {T : Type} (e : CacheEntry T) : Prop := e.age &&& 1 ≠ 0

instance {T : Type} (e : CacheEntry T) : Decidable e.IsPermanent := by
  unfold CacheEntry.IsPermanent; infer_instance

/-- `PerformSize`. A size is not negative. -/
structure PerformSize (T : Type) where
  size : T → BitVec 32
  nonneg : ∀ t, (size t).toNat < 2 ^ 31

/-- The size limit of a cache. It is not negative, and zero for none. -/
structure SizeLimit where
  size : BitVec 32
  nonneg : size.toNat < 2 ^ 31

/-- `B_GENERIC_CACHE_NEVER_PURGE`, `B_GENERIC_CACHE_DONT_ADD` and `B_GENERIC_CACHE_DONT_PURGE`. -/
structure CacheFlags where
  neverPurge : Bool
  dontAdd : Bool
  dontPurge : Bool
deriving DecidableEq

/-- What `AbstractAdd` returns: `B_OK`, `B_NO_MEMORY`, or the error of `CreateEntry`. -/
inductive AddStatus where
  | ok
  | noMemory
  | failed
deriving DecidableEq

structure SAbstractCache {K : Type} (cmp : K → K → Ordering) (T : Type) where
  age : BitVec 32
  cacheSize : BitVec 32
  sizeUsed : BitVec 32
  entries : Keyed cmp (CacheEntry T)

namespace SAbstractCache

variable {K T : Type} {cmp : K → K → Ordering}

def tick (c : SAbstractCache cmp T) : SAbstractCache cmp T := { c with age := c.age + 2 }

def sizeLeft (c : SAbstractCache cmp T) : ℤ := (c.cacheSize - c.sizeUsed).toInt

/-- The loop for the entry of the lowest age. -/
def scanAges : List (K × CacheEntry T) → ℕ → BitVec 32 → Option ℕ → Option ℕ
  | [], _, _, index => index
  | e :: es, i, minAge, index =>
    if e.2.age < minAge then scanAges es (i + 1) e.2.age (some i)
    else scanAges es (i + 1) minAge index

variable (size : PerformSize T)

/-- The entry at an index is removed, with its size. -/
def evict (c : SAbstractCache cmp T) (index : ℕ) : SAbstractCache cmp T :=
  match c.entries.items[index]? with
  | some e =>
    { c with sizeUsed := c.sizeUsed - size.size e.2.data, entries := c.entries.removeAt index }
  | none => c

/-- `while (size_left() < dataSize)`: it ends at the latest when there is no entry left. -/
def purge (age dataSize : BitVec 32) : ℕ → SAbstractCache cmp T → SAbstractCache cmp T
  | 0, c => c
  | n + 1, c =>
    if c.sizeLeft < dataSize.toInt then
      match scanAges c.entries.items 0 age none with
      | some index => purge age dataSize n (c.evict size index)
      | none => c
    else c

variable [Std.TransCmp cmp] [Std.LawfulEqCmp cmp]

def abstractLookup (c : SAbstractCache cmp T) (key : K) : SAbstractCache cmp T × Option T :=
  match c.entries.valueFor key with
  | some e =>
    if e.IsPermanent then (c, some e.data)
    else ({ c.tick with entries := c.entries.add key { e with age := c.tick.age } }, some e.data)
  | none => (c, none)

omit [Std.TransCmp cmp] [Std.LawfulEqCmp cmp] in
/-- The entry that a new one replaces. -/
def dropKeyed (c : SAbstractCache cmp T) (key : K) : SAbstractCache cmp T :=
  match c.entries.valueFor key with
  | some e =>
    { c with sizeUsed := c.sizeUsed - size.size e.data, entries := c.entries.remove key }
  | none => c

omit [Std.TransCmp cmp] [Std.LawfulEqCmp cmp] in
/-- What an entry counts with. -/
def dataSize (data : T) (flags : CacheFlags) : BitVec 32 :=
  if flags.neverPurge then 0 else size.size data

omit [Std.TransCmp cmp] [Std.LawfulEqCmp cmp] in
/-- Room is made, if the cache is limited and may be purged. -/
def makeRoom (c : SAbstractCache cmp T) (dataSize : BitVec 32) (flags : CacheFlags) :
    SAbstractCache cmp T :=
  if c.cacheSize = 0 then c
  else if c.cacheSize.toInt < dataSize.toInt ∧ flags.dontPurge then c
  else c.purge size c.age dataSize c.entries.items.length

/-- `AbstractAdd`; `created` is whether `CreateEntry` has memory. -/
def abstractAdd (c : SAbstractCache cmp T) (key : K) (data : T) (flags : CacheFlags)
    (created : Bool) : SAbstractCache cmp T × AddStatus :=
  let dataSize := dataSize size data flags
  let c := (c.dropKeyed size key).tick
  let age := c.age
  let c := c.makeRoom size dataSize flags
  if flags.dontAdd ∧ c.sizeLeft < dataSize.toInt then (c, .noMemory)
  else
    let entryAge := if flags.neverPurge then 0xFFFFFFFF#32 else age
    if created then
      ({ c with entries := c.entries.add key ⟨entryAge, data⟩, sizeUsed := c.sizeUsed + dataSize },
        .ok)
    else (c, .failed)

omit [Std.TransCmp cmp] [Std.LawfulEqCmp cmp] in
/-- `AbstractRemove`; `false` for `B_NAME_NOT_FOUND`. -/
def abstractRemove (c : SAbstractCache cmp T) (key : K) : SAbstractCache cmp T × Bool :=
  match c.entries.valueFor key with
  | some e =>
    let sizeUsed := if e.IsPermanent then c.sizeUsed else c.sizeUsed - size.size e.data
    ({ c with sizeUsed := sizeUsed, entries := c.entries.remove key }, true)
  | none => (c, false)

end SAbstractCache

/-! ### Runs -/

/-- A call, with its arguments and whether there is memory for an entry. -/
inductive CacheCall (K T : Type) where
  | lookup (key : K)
  | add (key : K) (data : T) (flags : CacheFlags) (created : Bool)
  | remove (key : K)

/-- A cache with the time of the last use of every key, and the size that the last entry that was
added counts with. -/
structure CacheRun {K : Type} (cmp : K → K → Ordering) (T : Type) where
  cache : SAbstractCache cmp T
  lastUse : K → ℕ
  clock : ℕ
  lastSize : ℕ

namespace CacheRun

open SAbstractCache (dataSize)

variable {K T : Type} [DecidableEq K] {cmp : K → K → Ordering} [Std.TransCmp cmp]
  [Std.LawfulEqCmp cmp] (size : PerformSize T)

/-- A key is used. -/
def use (r : CacheRun cmp T) (key : K) : K → ℕ := Function.update r.lastUse key r.clock

def step (r : CacheRun cmp T) : CacheCall K T → Option (CacheRun cmp T)
  | .lookup key =>
    some { r with
      cache := (r.cache.abstractLookup key).1
      lastUse := r.use key
      clock := r.clock + 1 }
  | .add key data flags created =>
    let added := r.cache.abstractAdd size key data flags created
    some {
      cache := added.1
      lastUse := r.use key
      clock := r.clock + 1
      lastSize := if added.2 = .ok then (dataSize size data flags).toNat else r.lastSize }
  | .remove key => some { r with cache := (r.cache.abstractRemove size key).1 }

omit [DecidableEq K] [Std.TransCmp cmp] [Std.LawfulEqCmp cmp] in
/-- An empty cache. -/
def start (limit : SizeLimit) : CacheRun cmp T where
  cache := ⟨0, limit.size, 0, Keyed.empty⟩
  lastUse _ := 0
  clock := 0
  lastSize := 0

/-! ### What goes wrong -/

omit [DecidableEq K] [Std.TransCmp cmp] [Std.LawfulEqCmp cmp] in
/-- **The age counter does not wrap** over an entry that can be purged, other than of a key. -/
def AgeFits (c : SAbstractCache cmp T) (key : K) : Prop :=
  c.age = 0xFFFFFFFE#32 → ∀ e ∈ c.entries.items, ¬ e.2.IsPermanent → e.1 = key

omit [DecidableEq K] [Std.TransCmp cmp] [Std.LawfulEqCmp cmp] in
/-- **An entry is added right**: what it replaces is counted, it does not replace another one if it
is not added itself, and neither counter wraps. -/
structure AddFits (c : SAbstractCache cmp T) (key : K) (data : T) (flags : CacheFlags)
    (created : Bool) : Prop where
  counted : ∀ e, c.entries.valueFor key = some e → e.IsPermanent → size.size e.data = 0
  stored : c.entries.has key = true → created = true ∧ (flags.dontAdd = true →
    if c.cacheSize = 0 then
      (c.dropKeyed size key).sizeUsed.toNat + (dataSize size data flags).toNat = 0
    else (dataSize size data flags).toNat ≤ c.cacheSize.toNat)
  age : AgeFits c key
  used : (c.cacheSize = 0 ∨
      c.cacheSize.toNat < (dataSize size data flags).toNat ∧ flags.dontPurge = true) →
    flags.dontAdd = false → created = true →
      (c.dropKeyed size key).sizeUsed.toNat + (dataSize size data flags).toNat < 2 ^ 31

omit [DecidableEq K] [Std.TransCmp cmp] [Std.LawfulEqCmp cmp] in
/-- **The calls that do not go wrong.** -/
def Observes (r : CacheRun cmp T) : CacheCall K T → Prop
  | .lookup key => (∃ e, r.cache.entries.valueFor key = some e ∧ ¬ e.IsPermanent) →
      AgeFits r.cache key
  | .add key data flags created => AddFits size r.cache key data flags created
  | .remove _ => True

end CacheRun

end OpenBinder
