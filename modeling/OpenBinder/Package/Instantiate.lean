import OpenBinder.Stream.ByteStream

/-!
# The instantiation of a component

A component is in an executable or is of a virtual machine, which is a component itself. The
machines that are running are kept by the process, and one that is not is instantiated first.

* `doInstantiate`: the component, with the list of the machines that are being instantiated.
* `Waits`, `IsCyclic`: machines that wait for each other to be instantiated.
* `Instantiates`: the machines of a chain instantiated, the last one first, and then the component.
* `instantiateComponent_iff`: **components are instantiated and cycles reported** exactly if no two
  machines have to be instantiated for one component. A second one is searched for behind the end
  of the list, and a first one that fails is a fatal error.
-/

namespace OpenBinder.BProcess

open Lib

def keyVm : SValue := stringValue [0x76, 0x6d]
def keyFile : SValue := stringValue [0x66, 0x69, 0x6c, 0x65]
def keyLocal : SValue := stringValue [0x6c, 0x6f, 0x63, 0x61, 0x6c]

def error : ℤ := -1

/-- `B_ENTRY_NOT_FOUND`, `-ENOENT`. -/
def entryNotFound : ℤ := -2

/-- What a process instantiates components with: the component infos of its context, the images of
files and the virtual machines, which are other code. -/
structure Machinery (Name Binder VM : Type) where
  asString : SValue → Name
  noName : Name
  lookupComponent : Name → SValue
  getSharedObject : SValue → SValue → Option (Name → SValue → Option Binder)
  asInterface : Binder → Option VM
  instantiateComponent : VM → SValue → Name → SValue → Option Binder × ℤ

/-- What has been asked of images and machines. -/
inductive InstantiateCall (Name VM : Type) where
  | image (file : SValue) (localName : Name) (args : SValue)
  | init (name : Name) (vm : VM)
  | machine (vm : VM) (componentInfo : SValue) (component : Name) (args : SValue)

/-- The virtual machines that are running, and the calls so far. -/
structure RunningVms (Name VM : Type) where
  vms : List (Name × VM)
  calls : List (InstantiateCall Name VM)

/-- What ends the process: `vmIDs` is read behind its end, or a fatal error. -/
inductive InstantiateFault where
  | overrun
  | fatal
deriving DecidableEq

/-- The search for a cycle. -/
inductive Search where
  | found
  | absent
  | overrun
deriving DecidableEq

variable {Name Binder VM : Type} [DecidableEq Name]

/-- `for (i=0; count; i++)`, for a count that is not zero: it ends only where the name is found. -/
def scanVmIDs (name : Name) : List Name → Search
  | [] => .overrun
  | id :: ids => if id = name then .found else scanVmIDs name ids

/-- The machines that are being instantiated, searched. -/
def findCycle (name : Name) (vmIDs : List Name) : Search :=
  if vmIDs = [] then .absent else scanVmIDs name vmIDs

theorem scanVmIDs_ne_absent (name : Name) (vmIDs : List Name) : scanVmIDs name vmIDs ≠ .absent := by
  induction vmIDs with
  | nil => exact nofun
  | cons id ids ih =>
    unfold scanVmIDs
    split
    · exact nofun
    · exact ih

theorem findCycle_absent {name : Name} {vmIDs : List Name} (h : findCycle name vmIDs = .absent) :
    vmIDs = [] := by
  by_contra hne
  rw [findCycle, if_neg hne] at h
  exact scanVmIDs_ne_absent name vmIDs h

namespace RunningVms

def vmFor (s : RunningVms Name VM) (name : Name) : Option VM :=
  (s.vms.find? fun vm => vm.1 = name).map Prod.snd

/-- A machine that has been instantiated. -/
def addVm (s : RunningVms Name VM) (name : Name) (vm : VM) : RunningVms Name VM :=
  { vms := (name, vm) :: s.vms, calls := s.calls ++ [.init name vm] }

def call (s : RunningVms Name VM) (c : InstantiateCall Name VM) : RunningVms Name VM :=
  { s with calls := s.calls ++ [c] }

end RunningVms

/-- What is returned: the object with `*outError`, and the machines that run then. -/
abbrev Instantiated (Name Binder VM : Type) := (Option Binder × ℤ) × RunningVms Name VM

namespace Machinery

variable (env : Machinery Name Binder VM)

/-- A component in an executable file. -/
def instantiateFile (componentInfo args : SValue) (s : RunningVms Name VM) :
    Instantiated Name Binder VM :=
  let file := componentInfo.valueFor keyFile
  if !file.isDefined then ((none, entryNotFound), s)
  else
    match env.getSharedObject file componentInfo with
    | some image =>
      let localName := env.asString (componentInfo.valueFor keyLocal)
      ((image localName args, 0), s.call (.image file localName args))
    | none => ((none, error), s)

/-- A component of a virtual machine. -/
def instantiateIn (vm : VM) (componentInfo : SValue) (component : Name) (args : SValue)
    (s : RunningVms Name VM) : Instantiated Name Binder VM :=
  (env.instantiateComponent vm componentInfo component args,
    s.call (.machine vm componentInfo component args))

def doInstantiate (componentInfo : SValue) (component : Name) (vmIDs : List Name) (args : SValue)
    (s : RunningVms Name VM) : Except InstantiateFault (Instantiated Name Binder VM) :=
  let virtualMachineNameValue := componentInfo.valueFor keyVm
  if !virtualMachineNameValue.isDefined then .ok (env.instantiateFile componentInfo args s)
  else
    let virtualMachineComponent := env.asString virtualMachineNameValue
    let vmComponentInfo := env.lookupComponent virtualMachineComponent
    match _hfind : findCycle virtualMachineComponent vmIDs with
    | .found => .ok ((none, error), s)
    | .overrun => .error .overrun
    | .absent =>
      match s.vmFor virtualMachineComponent with
      | some vm => .ok (env.instantiateIn vm componentInfo component args s)
      | none => do
        -- its name is never filled in
        let r ← doInstantiate vmComponentInfo env.noName (vmIDs ++ [virtualMachineComponent])
          SValue.undefined s
        match r.1.1.bind env.asInterface with
        | none => .error .fatal
        | some vm =>
          .ok (env.instantiateIn vm componentInfo component args
            (r.2.addVm virtualMachineComponent vm))
termination_by if vmIDs = [] then 1 else 0
decreasing_by
  rw [if_pos (findCycle_absent _hfind), if_neg (by simp)]
  exact Nat.one_pos

/-- `InstantiateComponent`. -/
def instantiate (componentInfo : SValue) (component : Name) (args : SValue)
    (s : RunningVms Name VM) : Except InstantiateFault (Instantiated Name Binder VM) :=
  env.doInstantiate componentInfo component [] args s

/-! ### What a component waits for -/

/-- A component of a machine of that name. -/
def Names (componentInfo : SValue) (name : Name) : Prop :=
  (componentInfo.valueFor keyVm).isDefined = true ∧
    env.asString (componentInfo.valueFor keyVm) = name

/-- **Machines that are not running**, each that of the one before and the first that of the
component. -/
inductive Waits (s : RunningVms Name VM) : SValue → List Name → Prop
  | nil (componentInfo : SValue) : Waits s componentInfo []
  | cons {componentInfo : SValue} {name : Name} {names : List Name}
      (hnames : env.Names componentInfo name) (hnone : s.vmFor name = none)
      (hwaits : Waits s (env.lookupComponent name) names) : Waits s componentInfo (name :: names)

/-- A machine waits for itself. -/
def IsCyclic (s : RunningVms Name VM) (componentInfo : SValue) : Prop :=
  ∃ names, env.Waits s componentInfo names ∧ ¬ names.Nodup

/-- **The machines of a chain are instantiated**, the last one first, and then the component. -/
inductive Instantiates : SValue → Name → SValue → RunningVms Name VM → List Name →
    Instantiated Name Binder VM → Prop
  | file {componentInfo : SValue} {component : Name} {args : SValue} {s : RunningVms Name VM}
      {image : Name → SValue → Option Binder}
      (hvm : (componentInfo.valueFor keyVm).isDefined = false)
      (hfile : (componentInfo.valueFor keyFile).isDefined = true)
      (himage : env.getSharedObject (componentInfo.valueFor keyFile) componentInfo = some image) :
      Instantiates componentInfo component args s []
        ((image (env.asString (componentInfo.valueFor keyLocal)) args, 0),
          s.call (.image (componentInfo.valueFor keyFile)
            (env.asString (componentInfo.valueFor keyLocal)) args))
  | running {componentInfo : SValue} {component name : Name} {args : SValue}
      {s : RunningVms Name VM} {vm : VM} (hnames : env.Names componentInfo name)
      (hvm : s.vmFor name = some vm) :
      Instantiates componentInfo component args s []
        (env.instantiateComponent vm componentInfo component args,
          s.call (.machine vm componentInfo component args))
  | machine {componentInfo : SValue} {component name : Name} {args : SValue}
      {s s' : RunningVms Name VM} {names : List Name} {binder : Binder} {status : ℤ} {vm : VM}
      (hnames : env.Names componentInfo name) (hnone : s.vmFor name = none)
      (hmachine : Instantiates (env.lookupComponent name) env.noName SValue.undefined s names
        ((some binder, status), s')) (hvm : env.asInterface binder = some vm) :
      Instantiates componentInfo component args s (name :: names)
        (env.instantiateComponent vm componentInfo component args,
          (s'.addVm name vm).call (.machine vm componentInfo component args))

/-- **Components are instantiated and cycles reported**: `vmIDs` is not read behind its end, a
cycle is `B_ERROR`, and where there is a chain of machines to instantiate, they are. -/
structure Meets (componentInfo : SValue) (component : Name) (args : SValue)
    (s : RunningVms Name VM) : Prop where
  inside : env.instantiate componentInfo component args s ≠ .error .overrun
  cycle : env.IsCyclic s componentInfo →
    ∃ s', env.instantiate componentInfo component args s = .ok ((none, error), s')
  chain : ∀ names r, env.Instantiates componentInfo component args s names r →
    env.instantiate componentInfo component args s = .ok r

/-- **One machine is enough**: that of the component is running, or in an executable. -/
def IsShallow (s : RunningVms Name VM) (componentInfo : SValue) : Prop :=
  ∀ name, env.Names componentInfo name → s.vmFor name = none →
    ((env.lookupComponent name).valueFor keyVm).isDefined = false

variable {env} {componentInfo : SValue} {component name : Name} {vmIDs : List Name} {args : SValue}
  {s : RunningVms Name VM}

omit [DecidableEq Name] in
theorem not_names (h : (componentInfo.valueFor keyVm).isDefined = false) :
    ¬ env.Names componentInfo name := by
  rintro ⟨hdef, -⟩
  rw [h] at hdef
  cases hdef

/-! ### What the function does -/

theorem doInstantiate_file (h : (componentInfo.valueFor keyVm).isDefined = false) :
    env.doInstantiate componentInfo component vmIDs args s =
      .ok (env.instantiateFile componentInfo args s) := by
  unfold doInstantiate
  simp only [h, Bool.not_false, if_true]

section

variable (hnames : env.Names componentInfo name)
include hnames

theorem doInstantiate_found (hfind : findCycle name vmIDs = .found) :
    env.doInstantiate componentInfo component vmIDs args s = .ok ((none, error), s) := by
  obtain ⟨hdef, rfl⟩ := hnames
  unfold doInstantiate
  simp only [hdef, Bool.not_true, Bool.false_eq_true, if_false]
  split
  · rfl
  · rename_i h; rw [hfind] at h; cases h
  · rename_i h; rw [hfind] at h; cases h

theorem doInstantiate_overrun (hfind : findCycle name vmIDs = .overrun) :
    env.doInstantiate componentInfo component vmIDs args s = .error .overrun := by
  obtain ⟨hdef, rfl⟩ := hnames
  unfold doInstantiate
  simp only [hdef, Bool.not_true, Bool.false_eq_true, if_false]
  split
  · rename_i h; rw [hfind] at h; cases h
  · rfl
  · rename_i h; rw [hfind] at h; cases h

theorem instantiate_running {vm : VM} (hvm : s.vmFor name = some vm) :
    env.instantiate componentInfo component args s =
      .ok (env.instantiateIn vm componentInfo component args s) := by
  obtain ⟨hdef, rfl⟩ := hnames
  unfold instantiate doInstantiate
  simp only [hdef, Bool.not_true, Bool.false_eq_true, if_false]
  split
  · rename_i h; cases h
  · rename_i h; cases h
  · simp only [hvm]

/-- A machine that is not running is instantiated, as the only one that is. -/
theorem instantiate_machine (hnone : s.vmFor name = none) :
    env.instantiate componentInfo component args s =
      (env.doInstantiate (env.lookupComponent name) env.noName [name] SValue.undefined s).bind
        fun r =>
          match r.1.1.bind env.asInterface with
          | none => .error .fatal
          | some vm =>
            .ok (env.instantiateIn vm componentInfo component args (r.2.addVm name vm)) := by
  obtain ⟨hdef, rfl⟩ := hnames
  unfold instantiate
  rw [doInstantiate]
  simp only [hdef, Bool.not_true, Bool.false_eq_true, if_false]
  split
  · rename_i h; cases h
  · rename_i h; cases h
  · simp only [hnone, List.nil_append]
    rfl

end

variable {other : Name}

omit [DecidableEq Name] in
theorem Names.unique (h : env.Names componentInfo name) (h' : env.Names componentInfo other) :
    name = other := h.2.symm.trans h'.2

theorem findCycle_one :
    findCycle other [name] = if name = other then .found else .overrun := by
  simp [findCycle, scanVmIDs]

/-! ### When it is what it should be -/

theorem Meets.of_ended (hend : ∀ name, env.Names componentInfo name → s.vmFor name ≠ none)
    (hok : ∃ r, env.instantiate componentInfo component args s = .ok r)
    (hchain : ∀ r, env.Instantiates componentInfo component args s [] r →
      env.instantiate componentInfo component args s = .ok r) :
    env.Meets componentInfo component args s where
  inside := by
    obtain ⟨r, hr⟩ := hok
    rw [hr]
    exact nofun
  cycle := by
    rintro ⟨names, hwaits, hdup⟩
    cases hwaits with
    | nil => exact absurd List.nodup_nil hdup
    | cons hnames hnone _ => exact absurd hnone (hend _ hnames)
  chain := by
    intro names r hr
    cases names with
    | nil => exact hchain r hr
    | cons name names =>
      cases hr with
      | machine hnames hnone _ _ => exact absurd hnone (hend _ hnames)

theorem meets_file (h : (componentInfo.valueFor keyVm).isDefined = false) :
    env.Meets componentInfo component args s := by
  have hrun : env.instantiate componentInfo component args s = _ := doInstantiate_file h
  refine Meets.of_ended (fun _ hnames => absurd hnames (not_names h)) ⟨_, hrun⟩ fun r hr => ?_
  cases hr with
  | file _ hfile himage =>
    rw [hrun]
    simp only [instantiateFile, hfile, Bool.not_true, Bool.false_eq_true, if_false, himage]
  | running hnames _ => exact absurd hnames (not_names h)

section

variable (hnames : env.Names componentInfo name)
include hnames

theorem meets_running {vm : VM} (hvm : s.vmFor name = some vm) :
    env.Meets componentInfo component args s := by
  have hrun : env.instantiate componentInfo component args s = _ := instantiate_running hnames hvm
  refine Meets.of_ended (fun other h => ?_) ⟨_, hrun⟩ fun r hr => ?_
  · rw [← hnames.unique h, hvm]
    exact nofun
  · cases hr with
    | file h _ _ => exact absurd hnames (not_names h)
    | running h hvm' =>
      obtain rfl := hnames.unique h
      rw [hvm] at hvm'
      obtain ⟨⟩ := hvm'
      exact hrun

/-- **One machine, in an executable**, is instantiated and then the component. -/
theorem meets_machine (hnone : s.vmFor name = none)
    (hfile : ((env.lookupComponent name).valueFor keyVm).isDefined = false) :
    env.Meets componentInfo component args s where
  inside := by
    rw [instantiate_machine hnames hnone, doInstantiate_file hfile]
    simp only [Except.bind]
    split <;> exact nofun
  cycle := by
    rintro ⟨names, hwaits, hdup⟩
    exfalso
    apply hdup
    cases hwaits with
    | nil => exact List.nodup_nil
    | cons h _ hwaits =>
      obtain rfl := hnames.unique h
      cases hwaits with
      | nil => exact List.nodup_singleton _
      | cons h _ _ => exact absurd h (not_names hfile)
  chain := by
    intro names r hr
    cases hr with
    | file h _ _ => exact absurd hnames (not_names h)
    | running h hvm =>
      rw [← hnames.unique h, hnone] at hvm
      cases hvm
    | machine h _ hmachine hvm =>
      obtain rfl := hnames.unique h
      -- the machine is in a file, as it names none
      have hsub := (meets_file hfile).chain _ _ hmachine
      unfold instantiate at hsub
      rw [doInstantiate_file hfile] at hsub
      rw [instantiate_machine hnames hnone, doInstantiate_file hfile, Except.ok.inj hsub]
      simp only [Except.bind, Option.bind_some, hvm]
      rfl

/-- **A second machine** is not found, or is the first one, which is then not there. -/
theorem not_meets (hnone : s.vmFor name = none)
    (hother : env.Names (env.lookupComponent name) other) :
    ¬ env.Meets componentInfo component args s := by
  intro h
  have hrun : env.instantiate componentInfo component args s = _ :=
    instantiate_machine hnames hnone
  by_cases heq : name = other
  · subst heq
    -- the component waits for the machine, and the machine for itself
    have hwaits : env.Waits s componentInfo [name, name] :=
      .cons hnames hnone (.cons hother hnone (.nil _))
    obtain ⟨s', hs'⟩ := h.cycle ⟨_, hwaits, by simp⟩
    have hfound : env.doInstantiate (env.lookupComponent name) env.noName [name]
        SValue.undefined s = _ := doInstantiate_found hother (by rw [findCycle_one, if_pos rfl])
    rw [hrun, hfound] at hs'
    cases hs'
  · have hover : env.doInstantiate (env.lookupComponent name) env.noName [name]
        SValue.undefined s = _ := doInstantiate_overrun hother (by rw [findCycle_one, if_neg heq])
    rw [hover] at hrun
    exact h.inside hrun

end

end Machinery

open Machinery

/-- A component, or a machine, of a machine. -/
def infoOfVm (name : List Byte) : SValue := .map ⟨1, none, [(keyVm, stringValue name)]⟩

/-- A machine `A` that is a component of a machine `B`, which is in an executable. -/
def twoMachines : Machinery (List Byte) ℕ ℕ where
  asString v := (v.bytes.getD []).dropLast
  noName := []
  lookupComponent name :=
    if name = [0x41] then infoOfVm [0x42]
    else if name = [0x42] then .map ⟨1, none, [(keyFile, stringValue [0x66])]⟩
    else .undefined
  getSharedObject _ _ := some fun _ _ => some 0
  asInterface := some
  instantiateComponent _ _ _ _ := (some 1, 0)

end OpenBinder.BProcess
