import OpenBinder.Parcel.Typed
import OpenBinder.Value.MapValues

/-!
# Effects

`Invoke` and `Get` tell an object what to do by values: `execute_effect` looks through a table
of actions for those that the values are about, and calls their hooks.

* `mapValuesCopy_wild`, `mapValuesCopy_key`: what the operator `*` of values does here.
* `executeEffect`: its loop over the table.
* `invoke_eq`, `get_eq`: an object that has an action of the given name is told the arguments,
  and what its hook returns is the result.
-/

namespace OpenBinder

open Lib List SValue

namespace SValue

/-- What can be the key of one item: it stands for itself. -/
structure IsKey (k : SValue) : Prop where
  defined : k.isDefined = true
  wild : k.isWild = false
  error : k.isError = false
  simple : k.isSimple = true

/-- A table of one pair. -/
def one (k v : SValue) : SValue := map ((BValueMap.create 1).setFirstMap k v)

@[simp] theorem isDefined_one (k v : SValue) : (one k v).isDefined = true := isDefined_map _
@[simp] theorem isError_one (k v : SValue) : (one k v).isError = false := isError_map _

variable {k k' v : SValue}

theorem compareMap_keys (h : k.isWild = false) (h' : k'.isWild = false) (v v' : SValue) :
    compareMap (k, v) (k', v') = k.compare k' := by
  have hk : Keyed (k, v) := fun hw => absurd (h.symm.trans hw) Bool.false_ne_true
  have hk' : Keyed (k', v') := fun hw => absurd (h'.symm.trans hw) Bool.false_ne_true
  rw [compareMap_eq hk hk', slot_key h, slot_key h', compare_codeCmp, cmpCode_cons]
  cases k.compare k' <;> rfl

theorem compareMap_set_ne (h : k.isWild = false) (h' : k'.isSimple = true) (v : SValue) :
    compareMap (k, v) (wild, k') ≠ .eq := by
  have hk : Keyed (k, v) := fun hw => absurd (h.symm.trans hw) Bool.false_ne_true
  have hw : Keyed (wild, k') := fun _ => h'
  rw [compareMap_eq hk hw, ne_eq, cmpCode_eq_iff, slot_key h, slot_wild (by decide)]
  intro heq
  have := (append_inj' heq rfl).2
  exact absurd this (by decide)

theorem valueFor_one_eq (h : k.IsKey) (h' : k'.IsKey) (heq : k.compare k' = .eq) :
    (one k v).valueFor k' = v := by
  have hc : compareMap (k, v) (k', undefined) = .eq := by
    rw [compareMap_keys h.wild h'.wild, heq]
  simp [valueFor, h'.wild, one, BValueMap.indexFor, BValueMap.getIndexOf, BValueMap.countMaps,
    BValueMap.setFirstMap, bisect, hc]

theorem getIndexOf_one (h : k.isWild = false) (h' : k'.isWild = false) (v v' : SValue) :
    BValueMap.getIndexOf ((BValueMap.create 1).setFirstMap k v) k' v' =
      match k.compare k' with
      | .eq => (true, 0)
      | .lt => (false, 1)
      | .gt => (false, 0) := by
  simp only [BValueMap.getIndexOf, BValueMap.countMaps, BValueMap.setFirstMap,
    length_singleton, bisect]
  cases hcmp : k.compare k' <;> simp [compareMap_keys h h', hcmp]

theorem valueFor_one_ne (h : k.IsKey) (h' : k'.IsKey) (hne : k.compare k' ≠ .eq) :
    (one k v).valueFor k' = undefined := by
  have hkey : BValueMap.indexFor ((BValueMap.create 1).setFirstMap k v) k' = none := by
    rw [BValueMap.indexFor, getIndexOf_one h.wild h'.wild]
    cases hcmp : k.compare k' with
    | eq => exact absurd hcmp hne
    | lt => rfl
    | gt => rfl
  have hset : BValueMap.indexFor ((BValueMap.create 1).setFirstMap k v) wild k' = none := by
    have hc := compareMap_set_ne h.wild h'.simple v
    simp only [BValueMap.indexFor, BValueMap.getIndexOf, BValueMap.countMaps,
      BValueMap.setFirstMap, length_singleton, bisect]
    cases hcmp : compareMap (k, v) (wild, k') with
    | eq => exact absurd hcmp hc
    | lt => simp [hcmp]
    | gt => simp [hcmp]
  simp [valueFor, h'.wild, one, hkey, hset]

/-- A table of two pairs, as `JoinItem` makes it from one. -/
def two (k v k' v' : SValue) : SValue :=
  map (BValueMap.addMapAt ((BValueMap.create 1).setFirstMap k v) 1 k' v')

@[simp] theorem isDefined_two (k v k' v' : SValue) : (two k v k' v').isDefined = true :=
  isDefined_map _
@[simp] theorem isError_two (k v k' v' : SValue) : (two k v k' v').isError = false :=
  isError_map _

theorem maps_two (k v k' v' : SValue) :
    (BValueMap.addMapAt ((BValueMap.create 1).setFirstMap k v) 1 k' v').maps = [(k, v), (k', v')] := by
  unfold BValueMap.addMapAt
  split <;> rfl

section Two

variable {k k' v v' : SValue}

theorem joinItem_one (h : k.IsKey) (h' : k'.IsKey) (hlt : k.compare k' = .lt) (hd : v'.isDefined = true) (hn : v'.isNull = false)
    (he : v'.isError = false) : joinItem (one k v) k' v' Flags.none = some (two k v k' v') := by
  have hbegin : (one k v).beginEditItem k' = none := by
    simp [beginEditItem, h'.wild, one, BValueMap.indexFor, getIndexOf_one h.wild h'.wild, hlt]
  have hadd : (one k v).addItem k' v' = two k v k' v' := by
    simp only [addItem, one, editMap, BValueMap.addNewMap, hd, h'.defined, h'.wild, Bool.not_false,
      Bool.or_true, Bool.and_true, if_true, getIndexOf_one h.wild h'.wild, hlt]
    rfl
  have hmap : k'.isMap = false := by rw [isMap_eq_not_isSimple, h'.simple, Bool.not_true]
  have hfinal : (one k v).isFinal = false := by simp [isFinal, one]
  simp [joinItem, joinItemWith, hfinal, h'.defined, hd, h'.wild, hn, hmap, h'.error, he, joinPair,
    hbegin, hadd]

theorem valueFor_two_fst (h : k.IsKey) : (two k v k' v').valueFor k = v := by
  have hc : compareMap (k, v) (k, undefined) = .eq := by
    rw [compareMap_keys h.wild h.wild, compare_self]
  simp [valueFor, h.wild, two, BValueMap.indexFor, BValueMap.getIndexOf, BValueMap.countMaps,
    maps_two, bisect, hc]

theorem valueFor_two_snd (h : k.IsKey) (h' : k'.IsKey) (hlt : k.compare k' = .lt) :
    (two k v k' v').valueFor k' = v' := by
  have hc : compareMap (k, v) (k', undefined) = .lt := by
    rw [compareMap_keys h.wild h'.wild, hlt]
  have hc' : compareMap (k', v') (k', undefined) = .eq := by
    rw [compareMap_keys h'.wild h'.wild, compare_self]
  simp [valueFor, h'.wild, two, BValueMap.indexFor, BValueMap.getIndexOf, BValueMap.countMaps,
    maps_two, bisect, hc, hc']

end Two

theorem initAsMap_key (h : k.IsKey) (hd : v.isDefined = true) (he : v.isError = false) :
    initAsMap Flags.none k v = some (one k v) := by
  have hmap : k.isMap = false := by rw [isMap_eq_not_isSimple, h.simple, Bool.not_true]
  cases k with
  | map m => exact absurd (isMap_eq_not_isSimple _ ▸ hmap) (by rw [isSimple_map]; decide)
  | small type data => simp [initAsMap, initAsMapWith, h.error, he, h.defined, hd, h.wild, hmap, one]
  | large type buffer =>
    simp [initAsMap, initAsMapWith, h.error, he, h.defined, hd, h.wild, hmap, one]

theorem joinItem_undefined_wild (hd : v.isDefined = true) :
    joinItem undefined wild v Flags.none = some v := by
  have h1 : undefined.isFinal = false := by decide
  have h2 : wild.isDefined = true := by decide
  have h3 : wild.isWild = true := by decide
  have h4 : undefined.isDefined = false := by decide
  simp [joinItem, joinItemWith, h1, h2, h3, h4, hd]

theorem mapItems_one {from' : SValue} (hs : v.isSimple = true) :
    mapItems Flags.none from' [(wild, v)] undefined = if (from'.valueFor v).isDefined then
      joinItem undefined wild (from'.valueFor v) Flags.none else some undefined := by
  rw [mapItems, valueForFlags_of_isSimple hs]
  show (if (from'.valueFor v).isDefined then _ else _) = _
  split
  · exact bind_pure _
  · rfl

theorem mapValuesCopy_wild (hd : v.isDefined = true) (hf : v.isFinal = false) :
    wild.mapValuesCopy Flags.none v = some v := by
  have h1 : wild.isError = false := by decide
  have h2 : wild.items = [(wild, wild)] := by rfl
  have h3 : v.valueFor wild = v := by
    unfold valueFor
    exact if_pos (by decide)
  have h4 : wild.isSimple = true := by decide
  simp [mapValuesCopy, h1, hf, h2, mapItems_one h4, h3, hd, joinItem_undefined_wild hd]

theorem mapValuesCopy_key (h : k.IsKey) (h' : k'.IsKey) :
    k.mapValuesCopy Flags.none (one k' wild) = some (if k'.compare k = .eq then wild else undefined) := by
  have hitems : k.items = [(wild, k)] := by
    cases k with
    | map m => exact absurd h.simple (by rw [isSimple_map]; decide)
    | small type data => simp [items, h.error, h.defined]
    | large type buffer => simp [items, h.error, h.defined]
  have hfinal : (one k' wild).isFinal = false := by simp [isFinal, one]
  have hwild : joinItem undefined wild wild Flags.none = some wild :=
    joinItem_undefined_wild (by decide)
  by_cases heq : k'.compare k = .eq
  · have hvalue : (one k' wild).valueFor k = wild := valueFor_one_eq h' h heq
    have hd : wild.isDefined = true := by decide
    simp [mapValuesCopy, h.error, hfinal, hitems, mapItems_one h.simple, heq, hvalue, hd, hwild]
  · have hvalue : (one k' wild).valueFor k = undefined := valueFor_one_ne h' h heq
    have hd : undefined.isDefined = false := by decide
    simp [mapValuesCopy, h.error, hfinal, hitems, mapItems_one h.simple, heq, hvalue, hd]

theorem valueFor_simple (h : k.IsKey) (hs : v.isSimple = true) (hw : v.isWild = false)
    (he : v.isError = false) (hne : k.compare v ≠ .eq) :
    v.valueFor k = undefined := by
  cases v with
  | map m => exact absurd hs (by rw [isSimple_map]; decide)
  | small type data => simp [valueFor, h.wild, hw, he, hne]
  | large type buffer => simp [valueFor, h.wild, hw, he, hne]

theorem valueFor_undefined (h : k.IsKey) : undefined.valueFor k = undefined := by
  apply valueFor_simple h (by decide) (by decide) (by decide)
  intro heq
  have hd := isDefined_code (compare_eq_iff.1 heq)
  rw [h.defined] at hd
  exact absurd hd.symm (by decide)

end SValue

/-! ### The table of actions -/

/-- An `effect_action_def`: the key, and the hooks that are not `NULL`. -/
structure EffectAction (σ : Type) where
  key : SValue
  put : Option (σ → SValue → BitVec 32 × σ)
  get : Option (σ → SValue × σ)
  invoke : Option (σ → SValue → SValue × σ)

/-- What `finish_logic` selects. -/
inductive EffectKind where
  | none
  | invoke
  | put
  | get
  deriving DecidableEq

section Effects

variable {σ : Type}

def EffectAction.finishLogic (action : EffectAction σ) (hasIn hasOut : Bool) : EffectKind :=
  if action.invoke.isSome && hasIn && (hasOut || !action.put.isSome) then .invoke
  else if action.put.isSome && hasIn then .put
  else if action.get.isSome && hasOut then .get
  else .none

/-- `call_effect_func`: the status, `out` and the object. -/
def EffectAction.call (action : EffectAction σ) (kind : EffectKind) (args outKey out : SValue)
    (s : σ) : Option (BitVec 32 × SValue × σ) :=
  match kind, action with
  | .invoke, ⟨_, _, _, some hook⟩ => do
    let (value, s) := hook s args
    pure (0, ← SValue.joinItem out outKey value Flags.none, s)
  | .put, ⟨_, some hook, _, _⟩ =>
    let (status, s) := hook s args
    some (status, out, s)
  | .get, ⟨_, _, some hook, _⟩ => do
    let (value, s) := hook s
    pure (0, ← SValue.joinItem out outKey value Flags.none, s)
  | _, _ => some (0, out, s)

/-- The first key of what `outBindings` makes of an action. -/
def firstKey (v : SValue) : SValue :=
  match v.items with
  | (key, _) :: _ => key
  | [] => SValue.undefined

/-- The loop of `execute_effect` over the actions, which are not in the order of their keys. -/
def effectLoop (told outBindings : SValue) :
    List (EffectAction σ) → SValue → σ → Option (BitVec 32 × SValue × σ)
  | [], out, s => some (0, out, s)
  | action :: actions, out, s => do
    let args := told.valueFor action.key
    let hasIn := (action.put.isSome || action.invoke.isSome) && args.isDefined
    let outKey ← (SValue.initAsMap Flags.none action.key SValue.wild).bind
      (outBindings.mapValuesCopy Flags.none)
    let hasOut := (action.get.isSome || action.invoke.isSome) && outKey.isDefined
    let kind := action.finishLogic hasIn hasOut
    if kind = .none then effectLoop told outBindings actions out s
    else do
      let (status, out, s) ← action.call kind args (firstKey outKey) out s
      if status = 0 then effectLoop told outBindings actions out s else some (status, out, s)

def executeEffect (actions : List (EffectAction σ)) (in' inBindings outBindings out : SValue)
    (s : σ) : Option (BitVec 32 × SValue × σ) := do
  let told ← inBindings.mapValuesCopy Flags.none in'
  effectLoop told outBindings actions out s

/-- `IBinder::Invoke`, of an object with these actions: what it returns, and the object. -/
def IBinder.invoke (actions : List (EffectAction σ)) (func args : SValue) (s : σ) :
    Option (SValue × σ) := do
  let in' ← SValue.initAsMap Flags.none func args
  let (_, out, s) ← executeEffect actions in' SValue.wild func SValue.undefined s
  pure (out, s)

def IBinder.get (actions : List (EffectAction σ)) (bindings : SValue) (s : σ) : Option (SValue × σ) := do
  let (_, out, s) ← executeEffect actions SValue.undefined SValue.undefined bindings
    SValue.undefined s
  pure (out, s)

variable {actions before after : List (EffectAction σ)} {action : EffectAction σ} {k args : SValue}

theorem effectLoop_others {told : SValue} (hk : k.IsKey)
    (htold : ∀ k' : SValue, k'.IsKey → k.compare k' ≠ .eq → told.valueFor k' = SValue.undefined)
    (rest : List (EffectAction σ)) (out : SValue) (s : σ) :
    ∀ others : List (EffectAction σ),
      (∀ a ∈ others, a.key.IsKey ∧ k.compare a.key ≠ .eq ∧ a.key.compare k ≠ .eq) →
        effectLoop told k (others ++ rest) out s = effectLoop told k rest out s := by
  have hd : SValue.undefined.isDefined = false := by decide
  have hw : SValue.wild.isDefined = true := by decide
  have he : SValue.wild.isError = false := by decide
  intro others
  induction others with
  | nil => intro _; rfl
  | cons a others ih =>
    intro hothers
    obtain ⟨ha, hne, hne'⟩ := hothers a (mem_cons_self ..)
    have hmap : (SValue.initAsMap Flags.none a.key SValue.wild).bind
        (k.mapValuesCopy Flags.none) =
        some SValue.undefined := by
      rw [initAsMap_key ha hw he, Option.bind_some, mapValuesCopy_key hk ha,
        if_neg hne']
    have hnone : a.finishLogic false false = .none := by
      simp [EffectAction.finishLogic]
    rw [cons_append, effectLoop, htold a.key ha hne, hmap]
    simp only [hd, Bool.and_false, Option.bind_eq_bind, Option.bind_some, hnone, if_true]
    exact ih fun b hb => hothers b (mem_cons_of_mem _ hb)

variable {r : SValue × σ}

theorem effectLoop_eq {told : SValue} {kind : EffectKind} {s : σ} (hk : action.key.IsKey)
    (hothers : ∀ a ∈ before ++ after, a.key.IsKey ∧ action.key.compare a.key ≠ .eq ∧
      a.key.compare action.key ≠ .eq)
    (htold : ∀ k' : SValue, k'.IsKey → action.key.compare k' ≠ .eq →
      told.valueFor k' = SValue.undefined)
    (hkind : action.finishLogic
      ((action.put.isSome || action.invoke.isSome) && (told.valueFor action.key).isDefined)
      (action.get.isSome || action.invoke.isSome) = kind) (hne : kind ≠ .none)
    (hcall : action.call kind (told.valueFor action.key) SValue.wild SValue.undefined s =
      some (0, r)) :
    effectLoop told action.key (before ++ action :: after) SValue.undefined s = some (0, r) := by
  have hmap : (SValue.initAsMap Flags.none action.key SValue.wild).bind
      (action.key.mapValuesCopy Flags.none) = some SValue.wild := by
    rw [initAsMap_key hk (by decide) (by decide), Option.bind_some,
      mapValuesCopy_key hk hk, if_pos (compare_self _)]
  have hwild : SValue.wild.isDefined = true := by decide
  have hfirst : firstKey SValue.wild = SValue.wild := rfl
  have hrest := effectLoop_others hk htold [] r.1 r.2 after
    fun a ha => hothers a (mem_append_right _ ha)
  rw [append_nil] at hrest
  rw [effectLoop_others hk htold _ _ _ before fun a ha => hothers a (mem_append_left _ ha),
    effectLoop, hmap]
  simp [hwild, hkind, hne, hfirst, hcall, hrest, effectLoop]

/-- **A table of actions**: their keys are keys, and no two are the same. -/
structure Distinct (actions : List (EffectAction σ)) : Prop where
  isKey : ∀ a ∈ actions, a.key.IsKey
  ne : actions.Pairwise fun a b => a.key.code ≠ b.key.code

theorem Distinct.split (h : Distinct actions) (hmem : action ∈ actions) :
    ∃ before after, actions = before ++ action :: after ∧
      ∀ a ∈ before ++ after, a.key.IsKey ∧ action.key.compare a.key ≠ .eq ∧
        a.key.compare action.key ≠ .eq := by
  obtain ⟨before, after, rfl⟩ := append_of_mem hmem
  refine ⟨before, after, rfl, fun a ha => ?_⟩
  obtain ⟨-, hcons, hcross⟩ := pairwise_append.1 h.ne
  have hne : a.key.code ≠ action.key.code := by
    rcases mem_append.1 ha with ha | ha
    · exact hcross a ha action (mem_cons_self ..)
    · exact ((pairwise_cons.1 hcons).1 a ha).symm
  refine ⟨h.isKey a ?_, fun heq => hne (compare_eq_iff.1 heq).symm,
    fun heq => hne (compare_eq_iff.1 heq)⟩
  rcases mem_append.1 ha with ha | ha
  · exact mem_append_left _ ha
  · exact mem_append_right _ (mem_cons_of_mem _ ha)

/-- **An object that has an action of the name** is told the arguments, and its answer is the
result. -/
theorem invoke_eq {hook : σ → SValue → SValue × σ} {s : σ} (h : Distinct actions)
    (hmem : (⟨k, none, none, some hook⟩ : EffectAction σ) ∈ actions) (hd : args.isDefined = true)
    (he : args.isError = false) (hr : hook s args = r) (hanswer : r.1.isDefined = true) :
    IBinder.invoke actions k args s = some r := by
  subst hr
  have hk : k.IsKey := h.isKey _ hmem
  obtain ⟨before, after, rfl, hothers⟩ := h.split hmem
  have hargs := valueFor_one_eq (v := args) hk hk (compare_self _)
  have hloop : effectLoop (SValue.one k args) k (before ++ ⟨k, none, none, some hook⟩ :: after)
      SValue.undefined s = some (0, hook s args) := by
    apply effectLoop_eq hk hothers (fun k' hk' hne => valueFor_one_ne hk hk' hne) rfl
    · simp [EffectAction.finishLogic, hargs, hd]
    · simp [EffectAction.finishLogic, EffectAction.call, hargs, hd,
        joinItem_undefined_wild hanswer]
  have hfinal : (SValue.one k args).isFinal = false := by simp [SValue.isFinal, SValue.one]
  have hdef : (SValue.one k args).isDefined = true := by simp [SValue.one]
  simp [IBinder.invoke, executeEffect, initAsMap_key hk hd he,
    mapValuesCopy_wild hdef hfinal, hloop]

theorem get_eq {hook : σ → SValue × σ} {s : σ} (h : Distinct actions)
    (hmem : (⟨k, none, some hook, none⟩ : EffectAction σ) ∈ actions) (hr : hook s = r)
    (hanswer : r.1.isDefined = true) : IBinder.get actions k s = some r := by
  subst hr
  have hk : k.IsKey := h.isKey _ hmem
  obtain ⟨before, after, rfl, hothers⟩ := h.split hmem
  have hloop : effectLoop SValue.undefined k (before ++ ⟨k, none, some hook, none⟩ :: after)
      SValue.undefined s = some (0, hook s) := by
    apply effectLoop_eq hk hothers (fun k' hk' _ => valueFor_undefined hk') rfl
    · simp [EffectAction.finishLogic]
    · simp [EffectAction.finishLogic, EffectAction.call, joinItem_undefined_wild hanswer]
  have htold : SValue.undefined.mapValuesCopy Flags.none SValue.undefined = some SValue.undefined := rfl
  simp [IBinder.get, executeEffect, htold, hloop]

end Effects

end OpenBinder
