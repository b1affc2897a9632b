import OpenBinder.Lib.Table
import OpenBinder.Lib.Run
import OpenBinder.Lib.Word
import Mathlib.Algebra.BigOperators.Group.Multiset.Basic

/-!
# Shared buffers and the pool

`SSharedBuffer` with its user count and the pool of buffers that are shared by their contents, used
by any number of threads. A locked region of the pool is one step, and so is every access to a user
count outside of the lock.

* `Call`: where a call on a buffer is, between two of its steps.
* `Slot`: what is at an address: a buffer or nothing, the references to it that callers hold, and
  the calls on it that are in progress. A call of `Pool` and of `DecUsers` has the reference of its
  caller until it gives it up.
* `IncUsers`, `DecUsers` and `Pool` of a static buffer change nothing but what its package counts.

`refs` and `faulted` are not in the source: the references that callers hold, and whether a buffer
was used after it was freed.
-/

namespace OpenBinder

open Lib

/-- `m_users`, the flag of `m_length`, and the data. -/
structure SSharedBuffer where
  users : BitVec 32
  extended : Bool
  data : List Byte

namespace SSharedBuffer

def staticUsers : BitVec 32 := 1

def pooledUsers : BitVec 32 := 2

/-- `B_BUFFER_USERS_SHIFT`. -/
def usersShift : ℕ := 4

/-- A user, `1<<B_BUFFER_USERS_SHIFT`. -/
def oneUser : BitVec 32 := 1 <<< usersShift

/-- Whether a user count has the static flag. -/
def IsStatic (users : BitVec 32) : Prop := users &&& staticUsers ≠ 0

/-- Whether a user count has the flag of a buffer in the pool. -/
def IsPooled (users : BitVec 32) : Prop := users &&& pooledUsers ≠ 0

instance (users : BitVec 32) : Decidable (IsStatic users) := instDecidableNot

instance (users : BitVec 32) : Decidable (IsPooled users) := instDecidableNot

/-- The users in a user count. -/
def count (users : BitVec 32) : BitVec 32 := users.sshiftRight usersShift

/-- `SSharedBuffer::Compare`: by length, and `memcmp`. -/
def compare : List Byte → List Byte → Ordering :=
  compareLex (compareOn List.length) (List.compareLex (compareOn BitVec.toNat))

/-- Where a `DecUsers` is. -/
inductive DecPc where
  /-- Before it reads the user count. -/
  | read
  /-- With the user count it has read. -/
  | decrement (users : BitVec 32)
  /-- Before the locked region of `unpool`. -/
  | unpool
  /-- Before `do_delete`. -/
  | doDelete
deriving DecidableEq

/-- Where a call on a buffer is. -/
inductive Call where
  /-- `Pool`, before its test without the lock. -/
  | pool
  /-- `Pool`, before its locked region. -/
  | poolLocked
  | decUsers (pc : DecPc)
deriving DecidableEq

/-- The references that a call has: that of its caller, until it has given it up. -/
def Call.refs : Call → ℕ
  | .decUsers .unpool | .decUsers .doDelete => 0
  | _ => 1

/-- An address. -/
structure Slot where
  buffer : Option SSharedBuffer
  refs : ℕ
  calls : Multiset Call

end SSharedBuffer

/-- All buffers, and `g_pool` with `g_poolAvail`. -/
structure SharedBuffers where
  slots : ℕ → SSharedBuffer.Slot
  pool : List ℕ
  avail : ℕ
  faulted : Bool

namespace SharedBuffers

open SSharedBuffer

/-- The static buffers of the program, and nothing else. -/
def init (statics : ℕ → Option (List Byte)) : SharedBuffers where
  slots b := ⟨(statics b).map fun data => ⟨staticUsers, false, data⟩, 0, 0⟩
  pool := []
  avail := 0
  faulted := false

/-- The data at an address: anything where there is no buffer. -/
def data (s : SharedBuffers) (b : ℕ) : List Byte :=
  match (s.slots b).buffer with
  | some x => x.data
  | none => []

/-- A buffer that is not there was used. -/
def fault (s : SharedBuffers) : SharedBuffers := { s with faulted := true }

/-- What is at an address changes. -/
def modify (s : SharedBuffers) (b : ℕ) (f : Slot → Slot) : SharedBuffers :=
  { s with slots := Function.update s.slots b (f (s.slots b)) }

/-- A user count changes. -/
def setUsers (s : SharedBuffers) (b : ℕ) (x : SSharedBuffer) (users : BitVec 32) : SharedBuffers :=
  s.modify b fun v => { v with buffer := some { x with users := users } }

/-- A call has another step to do. -/
def goOn (s : SharedBuffers) (b : ℕ) (c : Call) : SharedBuffers :=
  s.modify b fun v => { v with calls := c ::ₘ v.calls }

/-- A caller has a reference. -/
def addRef (s : SharedBuffers) (b : ℕ) : SharedBuffers :=
  s.modify b fun v => { v with refs := v.refs + 1 }

def findInPool (s : SharedBuffers) (b : ℕ) : Bool × ℕ := search compare s.data s.pool (s.data b)

/-- `add_to_pool`. `grown` is whether `realloc` succeeds. -/
def addToPool (s : SharedBuffers) (b pos : ℕ) (grown : Bool) : Option SharedBuffers :=
  if s.avail < s.pool.length + 1 then
    if grown then
      some { s with pool := s.pool.insertIdx pos b, avail := ((s.avail + 2) * 3) / 2 }
    else none
  else some { s with pool := s.pool.insertIdx pos b }

def removeFromPool (s : SharedBuffers) (pos : ℕ) : SharedBuffers :=
  { s with pool := s.pool.eraseIdx pos }

/-! ### The user count -/

/-- `IncUsers`, of a buffer that is not static: one atomic addition. -/
def incUsers (s : SharedBuffers) (b : ℕ) : SharedBuffers :=
  match (s.slots b).buffer with
  | none => s.fault
  | some x => if IsStatic x.users then s else s.setUsers b x (x.users + oneUser)

/-- `DecUsers` up to where the user count is read, and what it does next. -/
def readUsers (s : SharedBuffers) (b : ℕ) : SharedBuffers × Option DecPc :=
  match (s.slots b).buffer with
  | none => (s.fault, none)
  | some x => (s, some (if x.users = oneUser then .doDelete else .decrement x.users))

/-- The atomic addition of `DecUsers`, which has read `users` before. -/
def decrement (s : SharedBuffers) (b : ℕ) (users : BitVec 32) : SharedBuffers × Option DecPc :=
  if IsStatic users then (s, none)
  else
    match (s.slots b).buffer with
    | none => (s.fault, none)
    | some x =>
      let s' := s.setUsers b x (x.users - oneUser)
      if count x.users = 1 then (s', some (if IsPooled users then .unpool else .doDelete))
      else (s', none)

/-- The locked region of `unpool`. -/
def unpool (s : SharedBuffers) (b : ℕ) : SharedBuffers × Option DecPc :=
  match (s.slots b).buffer with
  | none => (s.fault, none)
  | some x =>
    if count x.users ≠ 0 then (s, none)
    else
      match s.findInPool b with
      | (true, pos) => (s.removeFromPool pos, some .doDelete)
      | (false, _) => (s, none)

def doDelete (s : SharedBuffers) (b : ℕ) : SharedBuffers :=
  match (s.slots b).buffer with
  | none => s.fault
  | some _ => s.modify b fun v => { v with buffer := none }

/-- A step of `DecUsers`, and what it does next. -/
def decStep (s : SharedBuffers) (b : ℕ) : DecPc → SharedBuffers × Option DecPc
  | .read => s.readUsers b
  | .decrement users => s.decrement b users
  | .unpool => s.unpool b
  | .doDelete => (s.doDelete b, none)

/-- Steps of `DecUsers` with none of another thread between them. -/
def decSteps (b : ℕ) : ℕ → SharedBuffers → DecPc → SharedBuffers
  | 0, s, _ => s
  | n + 1, s, pc =>
    match s.decStep b pc with
    | (s', none) => s'
    | (s', some pc') => decSteps b n s' pc'

/-- `DecUsers` within a locked region: it has at most four steps. -/
def decUsersNow (s : SharedBuffers) (b : ℕ) : SharedBuffers := decSteps b 4 s .read

/-! ### The pool -/

/-- `atomicOr32(&m_users, B_POOLED_USERS)`. -/
def markPooled (s : SharedBuffers) (b : ℕ) : SharedBuffers :=
  match (s.slots b).buffer with
  | none => s.fault
  | some x => s.setUsers b x (x.users ||| pooledUsers)

/-- A new buffer with one user. -/
def newBuffer (extended : Bool) (data : List Byte) : SSharedBuffer := ⟨oneUser, extended, data⟩

/-- `pooled` goes into the pool, and the buffer that `Pool` was called for is marked. -/
def poolNew (s : SharedBuffers) (this pooled pos : ℕ) (grown : Bool) : SharedBuffers :=
  match s.addToPool pooled pos grown with
  | some s' => (s'.markPooled this).addRef pooled
  | none => s.addRef pooled

/-- The locked region of `Pool`. `copy` is where `Alloc` puts a buffer, if it does. -/
def poolLocked (s : SharedBuffers) (b : ℕ) (copy : Option ℕ) (grown : Bool) : SharedBuffers :=
  match (s.slots b).buffer with
  | none => s.fault
  | some x =>
    if IsPooled x.users then s.addRef b
    else
      match s.findInPool b with
      | (true, pos) =>
        match s.pool[pos]? with
        | some p => ((s.incUsers p).decUsersNow b).addRef p
        | none => s
      | (false, pos) =>
        if x.extended then
          match copy with
          | none => s.addRef b
          | some c =>
            ((s.modify c fun v => { v with buffer := some (newBuffer false x.data) }).decUsersNow
              b).poolNew b c pos grown
        else s.poolNew b b pos grown

/-! ### Steps -/

/-- What can happen: a buffer is made, a call begins, or a call takes a step. -/
inductive Action where
  | alloc (b : ℕ) (extended : Bool) (data : List Byte)
  | incUsers (b : ℕ)
  | begin (b : ℕ) (c : Call)
  | run (b : ℕ) (c : Call) (copy : Option ℕ) (grown : Bool)

/-- Whether there is a static buffer at an address. -/
def AtStatic (s : SharedBuffers) (b : ℕ) : Prop :=
  ∃ x ∈ (s.slots b).buffer, IsStatic x.users

instance (s : SharedBuffers) (b : ℕ) : Decidable (s.AtStatic b) :=
  inferInstanceAs (Decidable (∃ x ∈ (s.slots b).buffer, IsStatic x.users))

/-- A caller may use a buffer it has a reference to, and a static one. -/
def MayUse (s : SharedBuffers) (b : ℕ) : Prop := 0 < (s.slots b).refs ∨ s.AtStatic b

instance (s : SharedBuffers) (b : ℕ) : Decidable (s.MayUse b) :=
  inferInstanceAs (Decidable (_ ∨ _))

/-- A call is about to take a step. -/
def take (s : SharedBuffers) (b : ℕ) (c : Call) : SharedBuffers :=
  s.modify b fun v => { v with calls := v.calls.erase c }

/-- A step of a call. -/
def runCall (s : SharedBuffers) (b : ℕ) (copy : Option ℕ) (grown : Bool) : Call → SharedBuffers
  | .pool =>
    match (s.slots b).buffer with
    | none => s.fault
    | some x =>
      if IsStatic x.users ∨ IsPooled x.users then s.addRef b else s.goOn b .poolLocked
  | .poolLocked => s.poolLocked b copy grown
  | .decUsers pc =>
    match s.decStep b pc with
    | (s', none) => s'
    | (s', some pc') => s'.goOn b (.decUsers pc')

/-- Whether there is no buffer where a new one is to be. -/
def Free (s : SharedBuffers) (b : ℕ) : Prop := (s.slots b).buffer = none

instance (s : SharedBuffers) (b : ℕ) : Decidable (s.Free b) :=
  inferInstanceAs (Decidable (_ = none))

/-- One step. -/
def step (s : SharedBuffers) : Action → Option SharedBuffers
  | .alloc b extended data =>
    if s.Free b then
      some (s.modify b fun v =>
        { v with buffer := some (newBuffer extended data), refs := v.refs + 1 })
    else none
  | .incUsers b => if s.MayUse b then some ((s.incUsers b).addRef b) else none
  | .begin b c =>
    if s.MayUse b ∧ (c = .pool ∨ c = .decUsers .read) then
      some (s.modify b fun v => { v with refs := v.refs - 1, calls := c ::ₘ v.calls })
    else none
  | .run b c copy grown =>
    if c ∈ (s.slots b).calls ∧ ∀ p ∈ copy, s.Free p then
      some ((s.take b c).runCall b copy grown c)
    else none

/-! ### The pool is exact -/

/-- The references to what is at an address: those of callers, and those of calls. -/
def refsTo (s : SharedBuffers) (b : ℕ) : ℕ :=
  (s.slots b).refs + ((s.slots b).calls.map Call.refs).sum

/-- A buffer that is not about to be freed. -/
structure Live (s : SharedBuffers) (b : ℕ) (x : SSharedBuffer) : Prop where
  buffer : (s.slots b).buffer = some x
  stays : .decUsers .doDelete ∉ (s.slots b).calls

/-- A live buffer with the flag of the pool, and not of the program. -/
structure LivePooled (s : SharedBuffers) (b : ℕ) (x : SSharedBuffer) : Prop extends s.Live b x where
  heap : ¬ IsStatic x.users
  pooled : IsPooled x.users

/-- **The pool is exact**: it is strictly sorted, its entries are the live buffers that have its
flag, no two of these have equal contents; a buffer lives as long as there are references to it,
and when there are none its last `DecUsers` takes it out of the pool or frees it; it frees it when
it has left the pool and nobody else is at it, and nobody uses it afterwards. -/
structure Exact (s : SharedBuffers) : Prop where
  sorted : (s.pool.map s.data).Pairwise fun d e => compare d e = .lt
  entry : ∀ b ∈ s.pool, ∃ x, s.LivePooled b x
  member : ∀ b x, s.LivePooled b x → b ∈ s.pool
  distinct : ∀ a b x y, s.LivePooled a x → s.LivePooled b y → x.data = y.data → a = b
  held : ∀ b, 0 < s.refsTo b → ¬ s.AtStatic b → ∃ x, s.Live b x
  unused : ∀ b x, s.Live b x → ¬ IsStatic x.users → s.refsTo b = 0 →
    .decUsers .unpool ∈ (s.slots b).calls
  last : ∀ b, .decUsers .doDelete ∈ (s.slots b).calls →
    (s.slots b).buffer.isSome ∧ s.refsTo b = 0 ∧ (s.slots b).calls.card = 1 ∧ b ∉ s.pool
  unfaulted : s.faulted = false

/-- Whether the user count of a buffer can take another user. -/
def HasRoom (s : SharedBuffers) (b : ℕ) : Prop :=
  ∀ x ∈ (s.slots b).buffer, x.users.toNat / 2 ^ usersShift + 1 < 2 ^ 28

/-- The steps that do not go wrong. A user count has room for the user that is added to it. `Pool`
does not put a copy of an extended buffer into the pool, which marks the buffer and not its copy.
When `DecUsers` takes the last user off a buffer in the pool, the buffer was in the pool when it
read the user count. When it takes a buffer out of the pool, no other `DecUsers` is about to. -/
def Observes (s : SharedBuffers) : Action → Prop
  | .incUsers b => s.HasRoom b
  | .run b .poolLocked copy grown =>
    ∀ x ∈ (s.slots b).buffer, ¬ IsPooled x.users →
      match s.findInPool b with
      | (true, pos) => ∀ p ∈ s.pool[pos]?, s.HasRoom p
      | (false, _) => x.extended = true → copy = none ∨
          s.avail < s.pool.length + 1 ∧ grown = false
  | .run b (.decUsers (.decrement users)) _ _ =>
    ∀ x ∈ (s.slots b).buffer, count x.users = 1 → IsPooled x.users → IsPooled users
  | .run b (.decUsers .unpool) _ _ =>
    ∀ x ∈ (s.slots b).buffer, count x.users = 0 →
      (s.slots b).calls.count (.decUsers .unpool) = 1
  | _ => True

end SharedBuffers

end OpenBinder
