import OpenBinder.Lib.Word

/-!
# The options of a command

`SGetOpts::Next` goes through the arguments of a command, from one option to the next. What it
prints is left out.

* `SGetOpts.pass`: a turn of the function; `SGetOpts.calls`: what repeated calls report.
* `SGetOpts.account`: what every argument is there for.
* `SGetOpts.accounted_iff`: when repeated calls report that.
-/

namespace OpenBinder

open Lib List

/-- The type of an option: `B_MAIN_ARGUMENT`, `B_NO_ARGUMENT` or `B_REQUIRED_ARGUMENT`. -/
inductive ArgumentType where
  | main
  | no
  | required
  deriving DecidableEq

/-- `SLongOption`, but for its help text. -/
structure SLongOption where
  name : List Byte
  type : ArgumentType
  option : ℤ

/-- An argument: a string, without its `NUL`, or another value. -/
inductive Argument (V : Type) where
  | string (str : List Byte) (ends : 0 ∉ str)
  | other (value : V)

/-- `SGetOpts`, but for its options. -/
structure SGetOpts (V : Type) where
  curIndex : ℕ := 0
  optIndex : ℕ := 0
  endOfOpts : ℕ := 0
  optCode : ℤ := 0
  argument : Option (Argument V) := none
  shortOpts : Option (List Byte) := none
  shortPos : ℕ := 0
  helpNeeded : Bool := false

namespace SGetOpts

variable {V : Type}

/-- The character `-`. -/
def dash : Byte := 0x2d

/-- A character of a string, or its `NUL`. -/
def charAt (str : List Byte) (i : ℕ) : Byte := str.getD i 0

/-- The loop that looks for an option: which one it is. -/
def find (p : SLongOption → Bool) : ℕ → List SLongOption → Option (ℕ × SLongOption)
  | _, [] => none
  | which, opt :: options => if p opt then some (which, opt) else find p (which + 1) options

/-- The end of a turn of `Next`: `goto restart`, or what is returned. -/
inductive Pass (V : Type) where
  | restart (s : SGetOpts V)
  | ret (code : ℤ) (s : SGetOpts V)

/-- What is done for an option that was found. -/
def found (args : List (Argument V)) (which : ℕ) (opt : SLongOption) (s : SGetOpts V) : Pass V :=
  let s := { s with optIndex := which }
  if opt.type = .required then
    let s := { s with curIndex := s.curIndex + 1 }
    match args[s.curIndex]? with
    | none => .restart { s with helpNeeded := true }
    | some argument => .ret s.optCode { s with argument := some argument }
  else .ret s.optCode { s with argument := none }

/-- What is done for an argument where options are read. -/
def read (options : List SLongOption) (args : List (Argument V)) (s : SGetOpts V) :
    Argument V → Pass V
  | .other _ => .ret 0 { s with endOfOpts := s.curIndex }
  | .string str _ =>
    -- `Length` counts the `NUL`
    if str.length + 1 ≤ 1 then .ret 0 { s with endOfOpts := s.curIndex }
    else if charAt str 0 ≠ dash then .ret 0 { s with endOfOpts := s.curIndex }
    else if charAt str 1 = dash ∧ charAt str 2 = 0 then
      .restart { s with endOfOpts := s.curIndex + 1 }
    else if charAt str 1 ≠ dash then .restart { s with shortOpts := some str, shortPos := 0 }
    else
      match find (fun opt => opt.name = str.drop 2) 0 options with
      | none => .restart { s with helpNeeded := true }
      | some (which, opt) => found args which opt { s with optCode := opt.option }

/-- A turn of `Next`. -/
def pass (options : List SLongOption) (args : List (Argument V)) (s : SGetOpts V) : Pass V :=
  match s.shortOpts with
  | some str =>
    let s := { s with
      shortPos := s.shortPos + 1, optCode := (charAt str (s.shortPos + 1)).toInt }
    if s.optCode = 0 then .restart { s with shortOpts := none }
    else
      match find (fun opt => opt.option = s.optCode) 0 options with
      | none => .restart { s with helpNeeded := true }
      | some (which, opt) => found args which opt s
  | none =>
    let s := { s with curIndex := s.curIndex + 1 }
    match args[s.curIndex]? with
    | none => .ret (-1) s
    | some argument =>
      let s := { s with argument := some argument }
      if s.endOfOpts ≠ 0 then .ret 0 s
      else read options args s argument

/-- What a call returns, with `ArgumentIndex` and `ArgumentValue`. -/
abbrev Report (V : Type) := ℤ × ℕ × Option (Argument V)

/-- `SGetOpts::Next` is called until it returns `-1`, in this many turns; and `IsHelpNeeded`. -/
def calls (options : List SLongOption) (args : List (Argument V)) :
    ℕ → SGetOpts V → Option (List (Report V) × Bool)
  | 0, _ => none
  | fuel + 1, s =>
    match pass options args s with
    | .restart s => calls options args fuel s
    | .ret code s =>
      if code = -1 then some ([], s.helpNeeded)
      else (calls options args fuel s).map fun r => ((code, s.curIndex, s.argument) :: r.1, r.2)

/-! ### What the arguments are there for -/

/-- What an argument is, where options are read. -/
inductive Kind where
  | main
  | terminator
  | options (given : List (Option SLongOption))

/-- The option that is meant by a character. -/
def short (options : List SLongOption) (c : Byte) : Option SLongOption :=
  options.find? fun opt => opt.option = c.toInt

/-- What an argument is. A `-` alone is not an option. -/
def kind (options : List SLongOption) : Argument V → Kind
  | .string (c :: c' :: str) _ =>
    if c ≠ dash then .main
    else if c' ≠ dash then .options ((c' :: str).map (short options))
    else if str = [] then .terminator
    else .options [options.find? fun opt => opt.name = str]
  | _ => .main

/-- What is found in the arguments, one after the other: one option, or several; an option with its
value, and the index of the last argument that was asked for; an option that is bad or has no value;
`--`; a main argument, which may end the options. -/
inductive Item (V : Type) where
  | options (argument : Argument V)
  | option (opt : SLongOption) (index : ℕ) (value : Option (Argument V))
  | bad
  | terminator (argument : Argument V)
  | main (index : ℕ) (argument : Argument V) (ends : Bool)

/-- The arguments that an item is about. -/
def Item.arguments : Item V → List (Argument V)
  | .options argument => [argument]
  | .option _ _ value => value.toList
  | .bad => []
  | .terminator argument => [argument]
  | .main _ argument _ => [argument]

/-- How an item is reported. -/
def Item.report : Item V → List (Report V)
  | .option opt index value => [(opt.option, index, value)]
  | .main index argument _ => [(0, index, some argument)]
  | _ => []

/-- What is in the arguments behind an index: some options have been given, or it is behind them. -/
def account (options : List SLongOption) :
    ℕ → Option (List (Option SLongOption)) → List (Argument V) → List (Item V)
  | index, some (none :: given), rest => .bad :: account options index (some given) rest
  | index, some (some opt :: given), rest =>
    if opt.type = .required then
      match rest with
      | [] => .bad :: account options (index + 1) (some given) []
      | argument :: rest =>
        .option opt (index + 1) (some argument) :: account options (index + 1) (some given) rest
    else .option opt index none :: account options index (some given) rest
  | _, _, [] => []
  | index, none, argument :: rest =>
    .main (index + 1) argument false :: account options (index + 1) none rest
  | index, some [], argument :: rest =>
    match kind options argument with
    | .main => .main (index + 1) argument true :: account options (index + 1) none rest
    | .terminator => .terminator argument :: account options (index + 1) none rest
    | .options given => .options argument :: account options (index + 1) (some given) rest
  termination_by _ given rest => (rest.length, (given.getD []).length)

/-- What is in the arguments of a command, the first of which is its name. -/
def items (options : List SLongOption) (args : List (Argument V)) : List (Item V) :=
  account options 0 (some []) (args.drop 1)

/-- Repeated calls end and report this. -/
def Calls (options : List SLongOption) (args : List (Argument V)) (s : SGetOpts V)
    (r : List (Report V) × Bool) : Prop :=
  ∃ fuel, calls options args fuel s = some r

/-- Repeated calls report these items, and whether help is needed. -/
def Reported (options : List SLongOption) (args : List (Argument V)) (s : SGetOpts V)
    (items : List (Item V)) : Prop :=
  ∃ help, Calls options args s (items.flatMap Item.report, help) ∧
    (help = true ↔ s.helpNeeded = true ∨ Item.bad ∈ items)

/-- The codes of options are positive. -/
def Positive (items : List (Item V)) : Prop :=
  ∀ opt index value, Item.option opt index value ∈ items → 0 < opt.option

/-- **The arguments are accounted for**: repeated calls end, they report the options, whose codes
are positive, and the main arguments, and help is needed if an option is bad. -/
def Accounted (options : List SLongOption) (args : List (Argument V)) : Prop :=
  Reported options args {} (items options args) ∧ Positive (items options args)

/-- The argument `-`. -/
def IsDash : Argument V → Prop
  | .string str _ => str = [dash]
  | .other _ => False

/-- The calls report the item: the code of an option is positive, and it is not a `-` where the
options are. -/
def Item.IsClear : Item V → Prop
  | .option opt _ _ => 0 < opt.option
  | .main _ argument ends => ends = true → ¬ IsDash argument
  | _ => True

/-! ### What the calls report -/

variable {options : List SLongOption} {args : List (Argument V)} {s s₁ : SGetOpts V} {index : ℕ}
  {given : Option (List (Option SLongOption))} {rest : List (Argument V)} {item : Item V}
  {items' : List (Item V)} {argument : Argument V} {entry : Option SLongOption}
  {pending : List (Option SLongOption)}

/-- **Every argument is in one item**, in order. -/
theorem account_arguments (options : List SLongOption) (index : ℕ)
    (given : Option (List (Option SLongOption))) (rest : List (Argument V)) :
    (account options index given rest).flatMap Item.arguments = rest := by
  induction index, given, rest using account.induct options with
  | case1 index given rest ih =>
    rw [account]
    exact ih
  | case2 index opt given hrequired ih =>
    rw [account, if_pos hrequired]
    exact ih
  | case3 index opt given hrequired argument rest ih =>
    rw [account, if_pos hrequired]
    exact congrArg (argument :: ·) ih
  | case4 index opt given rest hrequired ih =>
    rw [account.eq_def]
    exact (congrArg _ (if_neg hrequired)).trans ih
  | case5 index given hbad hopt =>
    rw [account]
    · rfl
    · exact hbad
    · exact hopt
  | case6 index argument rest ih =>
    rw [account]
    exact congrArg (argument :: ·) ih
  | case7 index argument rest hkind ih =>
    rw [account, hkind]
    exact congrArg (argument :: ·) ih
  | case8 index argument rest hkind ih =>
    rw [account, hkind]
    exact congrArg (argument :: ·) ih
  | case9 index argument rest given hkind ih =>
    rw [account, hkind]
    exact congrArg (argument :: ·) ih

theorem Calls.restart (hpass : pass options args s = .restart s₁) (r : List (Report V) × Bool) :
    Calls options args s r ↔ Calls options args s₁ r := by
  constructor
  · rintro ⟨_ | fuel, hr⟩
    · cases hr
    · rw [calls, hpass] at hr
      exact ⟨fuel, hr⟩
  · rintro ⟨fuel, hr⟩
    exact ⟨fuel + 1, by rwa [calls, hpass]⟩

theorem Calls.done (hpass : pass options args s = .ret (-1) s₁) (r : List (Report V) × Bool) :
    Calls options args s r ↔ r = ([], s₁.helpNeeded) := by
  constructor
  · rintro ⟨_ | fuel, hr⟩
    · cases hr
    · rw [calls, hpass] at hr
      exact (Option.some.inj hr).symm
  · rintro rfl
    exact ⟨1, by rw [calls, hpass]; rfl⟩

theorem Calls.ret {code : ℤ} (hpass : pass options args s = .ret code s₁) (hcode : code ≠ -1)
    (r : List (Report V) × Bool) : Calls options args s r ↔ ∃ reports,
      r.1 = (code, s₁.curIndex, s₁.argument) :: reports ∧ Calls options args s₁ (reports, r.2) := by
  constructor
  · rintro ⟨_ | fuel, hr⟩
    · cases hr
    · rw [calls, hpass] at hr
      simp only [if_neg hcode] at hr
      obtain ⟨⟨reports, help⟩, hcalls, rfl⟩ := Option.map_eq_some_iff.1 hr
      exact ⟨reports, rfl, fuel, hcalls⟩
  · obtain ⟨_, help⟩ := r
    rintro ⟨reports, rfl, fuel, hr⟩
    refine ⟨fuel + 1, ?_⟩
    rw [calls, hpass]
    simp only [if_neg hcode, hr, Option.map_some]

/-- An item that is not reported. -/
theorem Reported.silent (hcalls : ∀ r, Calls options args s r ↔ Calls options args s₁ r)
    (hreport : item.report = []) (hhelp : s₁.helpNeeded = true ↔ s.helpNeeded = true ∨ item = .bad) :
    Reported options args s (item :: items') ↔ Reported options args s₁ items' := by
  unfold Reported
  rw [flatMap_cons, hreport, nil_append, mem_cons, hhelp]
  simp only [hcalls, or_assoc, eq_comm]

/-- An item that is reported. -/
theorem Reported.ret {code : ℤ} (hpass : pass options args s = .ret code s₁) (hcode : code ≠ -1)
    (hreport : item.report = [(code, s₁.curIndex, s₁.argument)])
    (hhelp : s₁.helpNeeded = s.helpNeeded) :
    Reported options args s (item :: items') ↔ Reported options args s₁ items' := by
  have hbad : Item.bad ≠ item := by
    rintro rfl
    cases hreport
  unfold Reported
  rw [flatMap_cons, hreport, mem_cons, hhelp, or_iff_right hbad]
  refine exists_congr fun help => and_congr_left' ((Calls.ret hpass hcode _).trans ?_)
  constructor
  · rintro ⟨reports, heq, hcalls⟩
    obtain rfl := (List.cons.inj heq).2
    exact hcalls
  · exact fun hcalls => ⟨_, rfl, hcalls⟩

/-- **An item, and the items behind it.** -/
theorem accounted_cons
    (hclear : Reported options args s (item :: items') → Positive (item :: items') → item.IsClear)
    (hreported : item.IsClear →
      (Reported options args s (item :: items') ↔ Reported options args s₁ items'))
    (ih : Reported options args s₁ items' ∧ Positive items' ↔ ∀ item ∈ items', item.IsClear) :
    Reported options args s (item :: items') ∧ Positive (item :: items') ↔
      ∀ item' ∈ item :: items', item'.IsClear := by
  rw [forall_mem_cons, ← ih]
  constructor
  · rintro ⟨hs, hpositive⟩
    have h := hclear hs hpositive
    exact ⟨h, (hreported h).1 hs,
      fun opt i value hmem => hpositive opt i value (mem_cons_of_mem _ hmem)⟩
  · rintro ⟨h, hs, hpositive⟩
    refine ⟨(hreported h).2 hs, fun opt i value hmem => ?_⟩
    rcases mem_cons.1 hmem with rfl | hmem
    · exact h
    · exact hpositive opt i value hmem

/-- **Where `Next` is**: these options are left of a list of them, and these arguments. -/
structure Reads (options : List SLongOption) (args : List (Argument V)) (s : SGetOpts V)
    (index : ℕ) (given : Option (List (Option SLongOption))) (rest : List (Argument V)) : Prop where
  position : s.curIndex = index
  left : args.drop (index + 1) = rest
  reading : s.endOfOpts = 0 ↔ given.isSome = true
  pending : match s.shortOpts with
    | none => given.getD [] = []
    | some str => 0 ∉ str ∧ given = some ((str.drop (s.shortPos + 1)).map (short options))

/-- The next turn of `Next` is about this option. -/
def Takes (options : List SLongOption) (args : List (Argument V)) (s : SGetOpts V)
    (entry : Option SLongOption) (index : ℕ) (pending : List (Option SLongOption))
    (rest : List (Argument V)) : Prop :=
  ∃ s₁ : SGetOpts V, s₁.helpNeeded = s.helpNeeded ∧
    Reads options args s₁ index (some pending) rest ∧
    match entry with
    | none => pass options args s = .restart { s₁ with helpNeeded := true }
    | some opt => s₁.optCode = opt.option ∧ ∃ which, pass options args s = found args which opt s₁

/-- `Next` reads arguments, or is about to look up a long option. -/
def Awaits (options : List SLongOption) (args : List (Argument V)) (s : SGetOpts V) (index : ℕ)
    (given : Option (List (Option SLongOption))) (rest : List (Argument V)) : Prop :=
  Reads options args s index given rest ∨
    ∃ entry, given = some [entry] ∧ Takes options args s entry index [] rest

theorem find_eq (p : SLongOption → Bool) (options : List SLongOption) : ∀ which,
    (find p which options).map Prod.snd = options.find? p := by
  induction options with
  | nil => exact fun _ => rfl
  | cons opt options ih =>
    intro which
    rw [find, List.find?_cons]
    cases p opt with
    | true => rfl
    | false => exact ih _

theorem charAt_eq (str : List Byte) (i : ℕ) : charAt str i = (str.drop i).head?.getD 0 := by
  rw [charAt, getD_eq_getElem?_getD, List.head?_drop]

theorem Reads.takes (h : Reads options args s index (some (entry :: pending)) rest) :
    Takes options args s entry index pending rest := by
  have hgiven := h.pending
  cases hshort : s.shortOpts with
  | none =>
    rw [hshort] at hgiven
    cases hgiven
  | some str =>
    rw [hshort] at hgiven
    obtain ⟨hends, hgiven⟩ := hgiven
    cases hdrop : str.drop (s.shortPos + 1) with
    | nil =>
      rw [hdrop] at hgiven
      cases hgiven
    | cons c str' =>
      rw [hdrop] at hgiven
      obtain ⟨rfl, rfl⟩ := List.cons.inj (Option.some.inj hgiven)
      have hmem : c ∈ str := mem_of_mem_drop (hdrop ▸ mem_cons_self)
      have hc : c.toInt ≠ 0 := fun h0 => by
        obtain rfl : c = 0 := BitVec.eq_of_toInt_eq h0
        exact hends hmem
      have hchar : charAt str (s.shortPos + 1) = c := by rw [charAt_eq, hdrop]; rfl
      have hfind := find_eq (fun opt => opt.option = c.toInt) options 0
      refine ⟨{ s with shortPos := s.shortPos + 1, optCode := c.toInt }, rfl,
        ⟨h.position, h.left, h.reading, ?_⟩, ?_⟩
      · simp only [hshort]
        exact ⟨hends, by rw [← tail_drop, hdrop]; rfl⟩
      · unfold pass
        simp only [hshort, hchar, if_neg hc, short, ← hfind]
        cases hit : find (fun opt => opt.option = c.toInt) 0 options with
        | none => rfl
        | some r =>
          rw [hit, Option.map_some] at hfind
          have hcode := @List.find?_some _ (fun opt : SLongOption => opt.option = c.toInt) _ _
            hfind.symm
          exact ⟨(of_decide_eq_true hcode).symm, r.1, rfl⟩

theorem Awaits.takes (h : Awaits options args s index (some (entry :: pending)) rest) :
    Takes options args s entry index pending rest := by
  rcases h with h | ⟨_, heq, h⟩
  · exact h.takes
  · obtain ⟨rfl, rfl⟩ := List.cons.inj (Option.some.inj heq)
    exact h

/-- At the end of a list of options the next turn leaves it. -/
theorem Awaits.idle (h : Awaits options args s index given rest) (hgiven : given.getD [] = []) :
    ∃ s₁ : SGetOpts V, s₁.shortOpts = none ∧ Reads options args s₁ index given rest ∧
      ∀ items : List (Item V), Reported options args s items ↔ Reported options args s₁ items := by
  rcases h with h | ⟨_, rfl, -⟩
  · cases hshort : s.shortOpts with
    | none => exact ⟨s, hshort, h, fun _ => Iff.rfl⟩
    | some str =>
      have hpending := h.pending
      rw [hshort] at hpending
      obtain ⟨-, rfl⟩ := hpending
      have hdrop : str.drop (s.shortPos + 1) = [] := map_eq_nil_iff.1 hgiven
      have hchar : charAt str (s.shortPos + 1) = 0 := by rw [charAt_eq, hdrop]; rfl
      have hpass : pass options args s = .restart { s with
          shortPos := s.shortPos + 1, optCode := 0, shortOpts := none } := by
        unfold pass
        simp only [hshort, hchar]
        rfl
      exact ⟨{ s with shortPos := s.shortPos + 1, optCode := 0, shortOpts := none }, rfl,
        ⟨h.position, h.left, h.reading, hgiven⟩,
        fun _ => exists_congr fun _ => and_congr_left' (Calls.restart hpass _)⟩
  · cases hgiven

theorem getElem?_left (h : args.drop (index + 1) = rest) : args[index + 1]? = rest.head? := by
  rw [← h, List.head?_drop]

theorem drop_left (h : args.drop index = argument :: rest) : args.drop (index + 1) = rest := by
  rw [← tail_drop, h, tail_cons]

/-- **An argument where options are read**, and what it is. -/
theorem Reads.pass_eq (h : Reads options args s index (some []) (argument :: rest))
    (hshort : s.shortOpts = none) :
    match kind options argument with
    | .main => ¬ IsDash argument → pass options args s = .ret 0 { s with
        curIndex := index + 1, argument := some argument, endOfOpts := index + 1 }
    | .terminator => pass options args s = .restart { s with
        curIndex := index + 1, argument := some argument, endOfOpts := index + 1 + 1 }
    | .options pending =>
      (∃ s₁ : SGetOpts V, s₁.helpNeeded = s.helpNeeded ∧ pass options args s = .restart s₁ ∧
        Reads options args s₁ (index + 1) (some pending) rest) ∨
      ∃ entry, pending = [entry] ∧ Takes options args s entry (index + 1) [] rest := by
  have harg := getElem?_left h.left
  have hleft := drop_left h.left
  have hreading : s.endOfOpts = 0 := h.reading.2 rfl
  have hpass : pass options args s = read options args { s with
      curIndex := index + 1, argument := some argument } argument := by
    unfold pass
    simp only [hshort, h.position, harg, List.head?_cons, hreading, ne_eq, not_true_eq_false,
      if_false]
  rw [hpass]
  unfold Takes
  rw [hpass]
  rcases argument with ⟨_ | ⟨c, _ | ⟨c', str⟩⟩, hends⟩ | value
  · exact fun _ => rfl
  · intro hdash
    have hc : c ≠ dash := fun hc => hdash (congrArg ([·]) hc)
    unfold read
    simp [charAt, hc]
  · have hlen : ¬ (c :: c' :: str).length + 1 ≤ 1 := by simp
    have htwo : charAt (c :: c' :: str) 2 = 0 ↔ str = [] := by
      cases str with
      | nil => exact ⟨fun _ => rfl, fun _ => rfl⟩
      | cons c'' str => exact ⟨fun h0 => absurd (show c'' = 0 from h0) fun h0 => hends (by simp [h0]),
          fun h => by cases h⟩
    have hzero : charAt (c :: c' :: str) 0 = c := rfl
    have hone : charAt (c :: c' :: str) 1 = c' := rfl
    unfold kind read
    simp only [if_neg hlen, hzero, hone, htwo]
    by_cases hc : c = dash
    · subst hc
      by_cases hc' : c' = dash
      · subst hc'
        by_cases hstr : str = []
        · simp only [hstr, ne_eq, not_true_eq_false, if_false, and_self, if_true]
        · simp only [hstr, ne_eq, not_true_eq_false, if_false, and_false]
          refine .inr ⟨_, rfl, ?_⟩
          have hreads : ∀ code, Reads options args { s with
              curIndex := index + 1, argument := some (.string (dash :: dash :: str) hends),
              optCode := code } (index + 1) (some []) rest := fun _ =>
            ⟨rfl, hleft, h.reading, by rw [hshort]; rfl⟩
          have hfind := find_eq (fun opt => opt.name = str) options 0
          simp only [drop_succ_cons, drop_zero, ← hfind]
          cases hit : find (fun opt => opt.name = str) 0 options with
          | none => refine ⟨_, ?_, hreads s.optCode, ?_⟩ <;> rfl
          | some r => refine ⟨_, ?_, hreads r.2.option, ?_, r.1, ?_⟩ <;> rfl
      · simp only [hc', ne_eq, not_true_eq_false, false_and, if_false, not_false_eq_true, if_true]
        refine .inl ⟨_, ?_, rfl, rfl, hleft, h.reading, ?_⟩
        · rfl
        · exact ⟨hends, rfl⟩
    · simp only [ne_eq, hc, not_false_eq_true, if_true, implies_true]
  · exact fun _ => rfl

/-- The least index that can be reported next. -/
def bound (s : SGetOpts V) : ℕ := if s.shortOpts = none then s.curIndex + 1 else s.curIndex

/-- A turn reports nothing in front of an index. -/
def Pass.IsFrom (n : ℕ) : Pass V → Prop
  | .restart s => n ≤ s.bound
  | .ret _ s => n ≤ s.curIndex

theorem le_bound (s : SGetOpts V) : s.curIndex ≤ s.bound := by
  unfold bound
  split
  · exact Nat.le_succ _
  · exact le_rfl

theorem Pass.isFrom_restart {n : ℕ} (h : n ≤ s.curIndex) : (Pass.restart s).IsFrom n :=
  Nat.le_trans h (le_bound s)

theorem found_isFrom (which : ℕ) (opt : SLongOption) (s : SGetOpts V) :
    (found args which opt s).IsFrom s.curIndex := by
  unfold found
  split
  · dsimp only
    split
    · exact Pass.isFrom_restart (Nat.le_succ _)
    · exact Nat.le_succ _
  · exact le_rfl

theorem pass_isFrom (s : SGetOpts V) : (pass options args s).IsFrom s.bound := by
  unfold pass
  cases hshort : s.shortOpts with
  | some str =>
    have hbound : s.bound = s.curIndex := by rw [bound, hshort]; rfl
    rw [hbound]
    dsimp only
    split
    · exact Nat.le_succ _
    split
    · exact Pass.isFrom_restart le_rfl
    · exact found_isFrom _ _ _
  | none =>
    have hbound : s.bound = s.curIndex + 1 := by rw [bound, hshort]; rfl
    rw [hbound]
    dsimp only
    split
    · exact le_rfl
    split
    · exact le_rfl
    unfold read
    repeat' split
    all_goals
      first | exact le_rfl | exact Pass.isFrom_restart le_rfl | exact found_isFrom _ _ _

theorem calls_index : ∀ (fuel : ℕ) (s : SGetOpts V) (r : List (Report V) × Bool),
    calls options args fuel s = some r → ∀ x ∈ r.1, s.bound ≤ x.2.1 := by
  intro fuel
  induction fuel with
  | zero =>
    intro s r h
    cases h
  | succ fuel ih =>
    intro s r h
    have hfrom : (pass options args s).IsFrom s.bound := pass_isFrom s
    rw [calls] at h
    cases hpass : pass options args s with
    | restart s₁ =>
      rw [hpass] at h hfrom
      exact fun x hx => Nat.le_trans hfrom (ih s₁ r h x hx)
    | ret code s₁ =>
      rw [hpass] at h hfrom
      dsimp only at h
      split at h
      · obtain ⟨⟩ := h
        exact fun x hx => absurd hx not_mem_nil
      · obtain ⟨r', hr', rfl⟩ := Option.map_eq_some_iff.1 h
        intro x hx
        rcases mem_cons.1 hx with rfl | hx
        · exact hfrom
        · exact Nat.le_trans (Nat.le_trans hfrom (le_bound s₁)) (ih s₁ r' hr' x hx)

/-- **A `-` is not reported** where the options are. -/
theorem Reads.not_reported (h : Reads options args s index (some []) (argument :: rest))
    (hshort : s.shortOpts = none) (hdash : IsDash argument) :
    ¬ Reported options args s (.main (index + 1) argument true :: items') := by
  rcases argument with ⟨str, hends⟩ | value
  · obtain rfl : str = [dash] := hdash
    have harg := getElem?_left h.left
    have hpass : pass options args s = .restart { s with
        curIndex := index + 1, argument := some (.string [dash] hends),
        shortOpts := some [dash], shortPos := 0 } := by
      unfold pass
      simp only [hshort, h.position, harg, List.head?_cons, h.reading.2 rfl]
      rfl
    rintro ⟨help, hcalls, -⟩
    rw [Calls.restart hpass, Calls.restart rfl] at hcalls
    obtain ⟨fuel, hcalls⟩ := hcalls
    exact absurd (calls_index fuel _ _ hcalls _ mem_cons_self) (Nat.not_succ_le_self _)
  · exact hdash.elim

/-- Behind the options, or where they end, an argument is reported. -/
theorem reported_iff : ∀ s : SGetOpts V, Awaits options args s index given rest →
    (Reported options args s (account options index given rest) ∧
        Positive (account options index given rest) ↔
      ∀ item ∈ account options index given rest, item.IsClear) := by
  induction index, given, rest using account.induct options with
  | case1 index given rest ih =>
    intro s h
    obtain ⟨s₁, hhelp, hreads, hpass⟩ := h.takes
    rw [account]
    exact accounted_cons (fun _ _ => trivial)
      (fun _ => Reported.silent (Calls.restart hpass) rfl (by simp))
      (ih _ (.inl ⟨hreads.position, hreads.left, hreads.reading, hreads.pending⟩))
  | case2 index opt given hrequired ih =>
    intro s h
    obtain ⟨s₁, -, hreads, -, which, hpass⟩ := h.takes
    have harg := getElem?_left hreads.left
    rw [found, if_pos hrequired] at hpass
    simp only [hreads.position, harg, List.head?_nil] at hpass
    rw [account, if_pos hrequired]
    have hleft : args.drop (index + 1 + 1) = [] := by rw [← tail_drop, hreads.left]; rfl
    exact accounted_cons (fun _ _ => trivial)
      (fun _ => Reported.silent (Calls.restart hpass) rfl (by simp))
      (ih _ (.inl ⟨rfl, hleft, hreads.reading, hreads.pending⟩))
  | case3 index opt given hrequired argument rest ih =>
    intro s h
    obtain ⟨s₁, hhelp, hreads, hcode, which, hpass⟩ := h.takes
    have harg := getElem?_left hreads.left
    rw [found, if_pos hrequired] at hpass
    simp only [hreads.position, harg, List.head?_cons, hcode] at hpass
    rw [account, if_pos hrequired]
    exact accounted_cons (fun _ hpositive => hpositive _ _ _ mem_cons_self)
      (fun hcode => Reported.ret hpass (by have : 0 < opt.option := hcode; omega) rfl hhelp)
      (ih _ (.inl ⟨rfl, drop_left hreads.left, hreads.reading, hreads.pending⟩))
  | case4 index opt given rest hrequired ih =>
    intro s h
    obtain ⟨s₁, hhelp, hreads, hcode, which, hpass⟩ := h.takes
    rw [found, if_neg hrequired, hcode] at hpass
    have haccount : account options index (some (some opt :: given)) rest =
        .option opt index none :: account options index (some given) rest := by
      rw [account.eq_def]
      exact if_neg hrequired
    rw [haccount]
    exact accounted_cons (fun _ hpositive => hpositive _ _ _ mem_cons_self)
      (fun hcode => Reported.ret hpass (by have : 0 < opt.option := hcode; omega)
        (by rw [← hreads.position]; rfl) hhelp)
      (ih _ (.inl ⟨hreads.position, hreads.left, hreads.reading, hreads.pending⟩))
  | case5 index given hbad hopt =>
    intro s h
    have hgiven : given.getD [] = [] := by
      rcases given with _ | _ | ⟨_ | opt, given⟩
      · rfl
      · rfl
      · exact (hbad given rfl).elim
      · exact (hopt opt given rfl).elim
    obtain ⟨s₁, hshort, hreads, hidle⟩ := h.idle hgiven
    have harg := getElem?_left hreads.left
    have hpass : pass options args s₁ = .ret (-1) { s₁ with curIndex := index + 1 } := by
      unfold pass
      simp only [hshort, hreads.position, harg, List.head?_nil]
    rw [account.eq_4 options index given hbad hopt, hidle]
    exact ⟨fun _ _ hmem => absurd hmem not_mem_nil, fun _ =>
      ⟨⟨s₁.helpNeeded, (Calls.done hpass _).2 rfl, by simp⟩, fun _ _ _ hmem =>
        absurd hmem not_mem_nil⟩⟩
  | case6 index argument rest ih =>
    intro s h
    obtain ⟨s₁, hshort, hreads, hidle⟩ := h.idle rfl
    have harg := getElem?_left hreads.left
    have hend : s₁.endOfOpts ≠ 0 := fun h0 => Bool.false_ne_true (hreads.reading.1 h0)
    have hpass : pass options args s₁ = .ret 0 { s₁ with
        curIndex := index + 1, argument := some argument } := by
      unfold pass
      simp only [hshort, hreads.position, harg, List.head?_cons, if_pos hend]
    rw [account, hidle]
    exact accounted_cons (fun _ _ h => by cases h)
      (fun _ => Reported.ret hpass (by decide) rfl rfl)
      (ih _ (.inl ⟨rfl, drop_left hreads.left, hreads.reading, by rw [hshort]; rfl⟩))
  | case7 index argument rest hkind ih =>
    intro s h
    obtain ⟨s₁, hshort, hreads, hidle⟩ := h.idle rfl
    have hpass := hreads.pass_eq hshort
    rw [hkind] at hpass
    rw [account, hkind, hidle]
    exact accounted_cons (fun hreported _ _ hdash => hreads.not_reported hshort hdash hreported)
      (fun hdash => Reported.ret (hpass (hdash rfl)) (by decide) rfl rfl)
      (ih _ (.inl ⟨rfl, drop_left hreads.left, by simp, by rw [hshort]; rfl⟩))
  | case8 index argument rest hkind ih =>
    intro s h
    obtain ⟨s₁, hshort, hreads, hidle⟩ := h.idle rfl
    have hpass := hreads.pass_eq hshort
    rw [hkind] at hpass
    rw [account, hkind, hidle]
    exact accounted_cons (fun _ _ => trivial)
      (fun _ => Reported.silent (Calls.restart hpass) rfl (by simp))
      (ih _ (.inl ⟨rfl, drop_left hreads.left, by simp, by rw [hshort]; rfl⟩))
  | case9 index argument rest given hkind ih =>
    intro s h
    obtain ⟨s₁, hshort, hreads, hidle⟩ := h.idle rfl
    have hpass := hreads.pass_eq hshort
    rw [hkind] at hpass
    rw [account, hkind, hidle]
    rcases hpass with ⟨s₂, hhelp, hpass, hreads₂⟩ | ⟨entry, rfl, htakes⟩
    · exact accounted_cons (fun _ _ => trivial)
        (fun _ => Reported.silent (Calls.restart hpass) rfl (by simp [hhelp]))
        (ih s₂ (.inl hreads₂))
    · exact accounted_cons (fun _ _ => trivial)
        (fun _ => Reported.silent (fun _ => Iff.rfl) rfl (by simp))
        (ih s₁ (.inr ⟨entry, rfl, htakes⟩))

end SGetOpts

end OpenBinder
