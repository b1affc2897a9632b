import OpenBinder.Text.Utf8

/-!
# Which references are replaced

`expand_char_refs` and `expand_entities` take whatever is between a delimiter and the next `;` for
the name of a reference, and replace it.

* `replaceRefs`: the references of a string replaced, and nothing else.
* `Clean`: every delimiter with a `;` behind it starts a reference.
* `expand_iff`: in these strings exactly the references are replaced.
-/

namespace OpenBinder.Xml

open Lib Utf8 List

/-- What `expand_entities` replaces a name by, where the context returns these replacements. -/
def entityReplacement (general parameter : List Byte → List Byte) (delimiter : Byte)
    (entity : List Byte) : List Byte :=
  if entity.head? = some (ascii '#') ∧ delimiter = ascii '&' then expandCharRef entity
  else if delimiter = ascii '%' then parameter entity
  else general entity

/-- `expand_entities`, with any context. -/
def expandEntitiesIn (general parameter : List Byte → List Byte) (str : List Byte)
    (delimiter : Byte) : List Byte :=
  expandLoop delimiter (fun _ => entityReplacement general parameter delimiter) str.length [] str

theorem expandEntities_eq (str : List Byte) (delimiter : Byte) :
    expandEntities str delimiter =
      expandEntitiesIn generalReplacement parameterReplacement str delimiter := rfl

/-- A decimal digit. -/
def IsDigit (c : Byte) : Prop := ascii '0' ≤ c ∧ c ≤ ascii '9'

/-- A hexadecimal digit. -/
def IsHexDigit (c : Byte) : Prop :=
  IsDigit c ∨ ascii 'A' ≤ c ∧ c ≤ ascii 'F' ∨ ascii 'a' ≤ c ∧ c ≤ ascii 'f'

instance : DecidablePred IsDigit := fun _ => inferInstanceAs (Decidable (_ ∧ _))

instance : DecidablePred IsHexDigit := fun _ => inferInstanceAs (Decidable (_ ∨ _ ∧ _ ∨ _ ∧ _))

instance : DecidablePred IsScalar := fun _ => inferInstanceAs (Decidable (_ ∧ _ ∧ _))

/-- The number that hexadecimal digits stand for. -/
def hexValue (n : ℕ) (digits : List Byte) : ℕ :=
  digits.foldl (fun n c => 16 * n + (hex2dec c).toNat) n

/-- The number in the name of a character reference. -/
def codePoint : List Byte → Option ℕ
  | hash :: c :: rest =>
    if hash ≠ ascii '#' then none
    else if c = ascii 'x' ∧ rest ≠ [] ∧ ∀ d ∈ rest, IsHexDigit d then some (hexValue 0 rest)
    else if ∀ d ∈ c :: rest, IsDigit d then some (digits 0 (c :: rest))
    else none
  | _ => none

/-- What a character reference is replaced by. -/
def charRef (name : List Byte) : Option (List Byte) :=
  (codePoint name).bind fun n => if IsScalar n then some (utf8 n) else none

/-- The name of an entity. -/
def IsName (name : List Byte) : Prop :=
  name ≠ [] ∧ ∀ c ∈ name, isWhitespace c = false ∧ c ≠ ascii '&' ∧ c ≠ ascii '%' ∧ c ≠ ascii '#'

instance : DecidablePred IsName := fun _ => inferInstanceAs (Decidable (_ ∧ _))

/-- What a reference is replaced by. -/
def reference (general parameter : List Byte → List Byte) (delimiter : Byte) (name : List Byte) :
    Option (List Byte) :=
  if delimiter = ascii '&' ∧ name.head? = some (ascii '#') then charRef name
  else if IsName name then
    some (if delimiter = ascii '%' then parameter name else general name)
  else none

/-- The references of a string replaced, from left to right. The first characters are those of a
reference that has been. -/
def replaceRefs (delimiter : Byte) (ref : List Byte → Option (List Byte)) :
    ℕ → List Byte → List Byte
  | _, [] => []
  | skip + 1, _ :: rest => replaceRefs delimiter ref skip rest
  | 0, c :: rest =>
    let name := rest.takeWhile (· ≠ ascii ';')
    match if c = delimiter ∧ ascii ';' ∈ rest then ref name else none with
    | some replacement => replacement ++ replaceRefs delimiter ref (name.length + 1) rest
    | none => c :: replaceRefs delimiter ref 0 rest

/-- **Every delimiter with a `;` behind it starts a reference.** -/
def Clean (delimiter : Byte) (ref : List Byte → Option (List Byte)) (str : List Byte) : Prop :=
  ∀ rest, delimiter :: rest <:+ str → ascii ';' ∈ rest →
    (ref (rest.takeWhile (· ≠ ascii ';'))).isSome

/-! ### One reference after the other -/

variable {delimiter : Byte} {ref : List Byte → Option (List Byte)}
  {before name behind rest str : List Byte}

theorem ne_of_notMem (h : delimiter ∉ before) : ∀ c ∈ before, decide (c ≠ delimiter) = true :=
  fun _ hc => decide_eq_true fun heq => h (heq ▸ hc)

theorem takeWhile_before (h : delimiter ∉ before) :
    (before ++ delimiter :: behind).takeWhile (· ≠ delimiter) = before := by
  rw [takeWhile_append_of_pos (ne_of_notMem h), takeWhile_cons_of_neg (by simp),
    append_nil]

theorem replaceRefs_skip : ∀ skip, name.length = skip →
    replaceRefs delimiter ref skip (name ++ rest) = replaceRefs delimiter ref 0 rest := by
  induction name with
  | nil =>
    rintro _ rfl
    rfl
  | cons c name ih =>
    rintro _ rfl
    exact ih _ rfl

theorem replaceRefs_before (h : delimiter ∉ before) :
    replaceRefs delimiter ref 0 (before ++ rest) = before ++ replaceRefs delimiter ref 0 rest := by
  induction before with
  | nil => rfl
  | cons c before ih =>
    rw [mem_cons, not_or] at h
    rw [cons_append, replaceRefs, if_neg fun hc => h.1 hc.1.symm, ih h.2, cons_append]

theorem replaceRefs_open (h : ascii ';' ∉ behind) :
    replaceRefs delimiter ref 0 behind = behind := by
  induction behind with
  | nil => rfl
  | cons c behind ih =>
    rw [mem_cons, not_or] at h
    rw [replaceRefs, if_neg fun hc => h.2 hc.2, ih h.2]

section Name

variable (h : ascii ';' ∉ name)
include h

theorem replaceRefs_some {replacement : List Byte} (href : ref name = some replacement) :
    replaceRefs delimiter ref 0 (delimiter :: (name ++ ascii ';' :: rest)) =
      replacement ++ replaceRefs delimiter ref 0 rest := by
  rw [replaceRefs, takeWhile_before h, if_pos ⟨rfl, by simp⟩, href,
    show name ++ ascii ';' :: rest = (name ++ [ascii ';']) ++ rest by simp]
  exact congrArg _ (replaceRefs_skip _ (by simp))

theorem replaceRefs_none (href : ref name = none) :
    replaceRefs delimiter ref 0 (delimiter :: (name ++ ascii ';' :: rest)) =
      delimiter :: replaceRefs delimiter ref 0 (name ++ ascii ';' :: rest) := by
  rw [replaceRefs, takeWhile_before h, if_pos ⟨rfl, by simp⟩, href]

/-- What a name with its `;` becomes, where it is no reference and no replacement is empty. -/
theorem replaceRefs_name (rest : List Byte) (hd : delimiter ≠ ascii ';') (hne : ∀ name, ref name ≠ some []) :
    ∃ kept ≠ [], replaceRefs delimiter ref 0 (name ++ ascii ';' :: rest) =
      kept ++ replaceRefs delimiter ref 0 rest := by
  induction name with
  | nil =>
    refine ⟨[ascii ';'], cons_ne_nil _ _, ?_⟩
    rw [nil_append, replaceRefs, if_neg fun hc => hd hc.1.symm]
    rfl
  | cons c name ih =>
    rw [mem_cons, not_or] at h
    obtain ⟨kept, -, hkept⟩ := ih h.2
    have hother : ∃ kept' ≠ [], c :: replaceRefs delimiter ref 0 (name ++ ascii ';' :: rest) =
        kept' ++ replaceRefs delimiter ref 0 rest :=
      ⟨c :: kept, cons_ne_nil _ _, by rw [hkept, cons_append]⟩
    rw [cons_append]
    by_cases hc : c = delimiter
    · subst hc
      cases href : ref name with
      | none => rwa [replaceRefs_none h.2 href]
      | some replacement =>
        exact ⟨replacement, fun heq => hne name (heq ▸ href), replaceRefs_some h.2 href⟩
    · rwa [replaceRefs, if_neg fun h => hc h.1]

end Name

theorem Clean.of_append (h : Clean delimiter ref (before ++ rest)) : Clean delimiter ref rest :=
  fun behind hs => h behind (hs.trans (suffix_append ..))

theorem Clean.append (hb : delimiter ∉ before) (h : Clean delimiter ref rest) :
    Clean delimiter ref (before ++ rest) := by
  induction before with
  | nil => exact h
  | cons c before ih =>
    rw [mem_cons, not_or] at hb
    intro behind hs
    rcases suffix_cons_iff.1 hs with heq | hs
    · exact absurd (List.cons.inj heq).1 hb.1
    · exact ih hb.2 behind hs

/-- A reference and what is behind it. -/
theorem Clean.cons {replacement : List Byte} (h : ascii ';' ∉ name) (hd : delimiter ≠ ascii ';')
    (href : ref name = some replacement) (hname : delimiter ∉ name)
    (hrest : Clean delimiter ref rest) :
    Clean delimiter ref (delimiter :: (name ++ ascii ';' :: rest)) := by
  intro behind hs hmem
  rcases suffix_cons_iff.1 hs with heq | hs
  · obtain rfl := (List.cons.inj heq).2
    rw [takeWhile_before h, href]
    rfl
  · have hs' : delimiter :: behind <:+ (name ++ [ascii ';']) ++ rest := by simpa using hs
    exact Clean.append (by simp [hname, hd]) hrest behind hs' hmem

/-! ### The loop -/

/-- A string has no reference, one that does not end, or one that ends. -/
theorem tokenInduction {motive : List Byte → Prop} (delimiter : Byte)
    (none : ∀ str, delimiter ∉ str → motive str)
    (last : ∀ before behind, delimiter ∉ before → ascii ';' ∉ behind →
      motive (before ++ delimiter :: behind))
    (step : ∀ before name rest, delimiter ∉ before → ascii ';' ∉ name → motive rest →
      motive (before ++ delimiter :: (name ++ ascii ';' :: rest))) :
    ∀ str, motive str := by
  intro str
  induction hn : str.length using Nat.strong_induction_on generalizing str with
  | _ n ih =>
    by_cases hd : delimiter ∈ str
    · obtain ⟨before, behind, rfl, hb⟩ := eq_append_cons_of_mem hd
      by_cases he : ascii ';' ∈ behind
      · obtain ⟨name, rest, rfl, hname⟩ := eq_append_cons_of_mem he
        exact step before name rest hb hname (ih _ (by simp at hn; omega) rest rfl)
      · exact last before behind hb he
    · exact none str hd

variable {replace : List Byte → List Byte → List Byte} {v : List Byte}

theorem dropWhile_none (h : delimiter ∉ str) : str.dropWhile (· ≠ delimiter) = [] := by
  have hdrop : (str ++ []).dropWhile (· ≠ delimiter) = [].dropWhile (· ≠ delimiter) :=
    dropWhile_append_of_pos (ne_of_notMem h)
  rwa [append_nil] at hdrop

theorem span_before (h : delimiter ∉ before) :
    (before ++ delimiter :: behind).span (· ≠ delimiter) = (before, delimiter :: behind) := by
  rw [span_eq_takeWhile_dropWhile, takeWhile_before h,
    dropWhile_append_of_pos (ne_of_notMem h), dropWhile_cons_of_neg (by simp)]

theorem expandLoop_none (fuel : ℕ) (h : delimiter ∉ str) :
    expandLoop delimiter replace fuel v str = str := by
  rcases fuel with _ | fuel
  · rfl
  · rw [expandLoop, span_eq_takeWhile_dropWhile, dropWhile_none h]

theorem expandLoop_last (fuel : ℕ) (hb : delimiter ∉ before) (h : ascii ';' ∉ behind) :
    expandLoop delimiter replace fuel v (before ++ delimiter :: behind) =
      before ++ delimiter :: behind := by
  rcases fuel with _ | fuel
  · rfl
  · rw [expandLoop, span_before hb]
    simp only [span_eq_takeWhile_dropWhile, dropWhile_none h]

theorem expandLoop_step (fuel : ℕ) (hb : delimiter ∉ before) (h : ascii ';' ∉ name) :
    expandLoop delimiter replace (fuel + 1) v (before ++ delimiter :: (name ++ ascii ';' :: rest)) =
      before ++ (replace v name ++ expandLoop delimiter replace fuel (replace v name) rest) := by
  rw [expandLoop, span_before hb]
  simp only [span_before h, append_assoc]

/-- **In a clean string** the loop replaces the references. -/
theorem expandLoop_of_clean
    (hgood : ∀ v name replacement, ref name = some replacement → replace v name = replacement) :
    ∀ str, Clean delimiter ref str → ∀ fuel v, str.length ≤ fuel →
      expandLoop delimiter replace fuel v str = replaceRefs delimiter ref 0 str := by
  intro str
  induction str using tokenInduction delimiter with
  | none str h =>
    intro _ fuel v _
    have hkept : replaceRefs delimiter ref 0 (str ++ []) = str ++ [] := replaceRefs_before h
    rw [append_nil] at hkept
    rw [expandLoop_none fuel h, hkept]
  | last before behind hb h =>
    intro _ fuel v _
    rw [expandLoop_last fuel hb h, replaceRefs_before hb, replaceRefs, if_neg fun hc => h hc.2,
      replaceRefs_open h]
  | step before name rest hb h ih =>
    intro hclean fuel v hfuel
    obtain ⟨fuel, rfl⟩ : ∃ f, fuel = f + 1 := ⟨fuel - 1, by simp at hfuel; omega⟩
    have htoken := hclean.of_append
    have href := htoken _ suffix_rfl (by simp)
    rw [takeWhile_before h] at href
    obtain ⟨replacement, href⟩ := Option.isSome_iff_exists.1 href
    rw [show delimiter :: (name ++ ascii ';' :: rest) = (delimiter :: (name ++ [ascii ';'])) ++ rest
      by simp] at htoken
    rw [expandLoop_step fuel hb h, replaceRefs_before hb, replaceRefs_some h href,
      hgood v name replacement href, ih htoken.of_append fuel _ (by simp at hfuel; omega)]

/-- A text that has fewer delimiters, or as many and fewer characters. -/
def Lighter (delimiter : Byte) (a b : List Byte) : Prop :=
  a.count delimiter < b.count delimiter ∨
    a.count delimiter = b.count delimiter ∧ a.length < b.length

theorem Lighter.append {a b : List Byte} (h : Lighter delimiter a b) (l : List Byte) :
    Lighter delimiter (l ++ a) (l ++ b) := by
  unfold Lighter at *
  simp only [count_append, length_append]
  omega

/-- A replacement of one delimiter at most is lighter than a delimiter with something behind it. -/
theorem Lighter.of_kept {w kept a b : List Byte} (hw : delimiter ∈ w → w = [delimiter])
    (hkept : kept ≠ []) (h : a = b ∨ Lighter delimiter a b) :
    Lighter delimiter (w ++ a) (delimiter :: (kept ++ b)) := by
  have hlen := length_pos_iff.2 hkept
  have hcount : w.count delimiter = 0 ∨ w.count delimiter = 1 ∧ w.length = 1 := by
    by_cases hmem : delimiter ∈ w
    · rw [hw hmem]
      exact .inr ⟨count_singleton_self, rfl⟩
    · exact .inl (count_eq_zero.2 hmem)
  have h' : a.count delimiter ≤ b.count delimiter ∧
      (a.count delimiter = b.count delimiter → a.length ≤ b.length) := by
    rcases h with rfl | h
    · exact ⟨le_rfl, fun _ => le_rfl⟩
    · unfold Lighter at h
      omega
  unfold Lighter
  simp only [count_append, length_append, count_cons_self, length_cons]
  omega

/-- **In any other string** it loses characters: a name that is no reference is replaced with its
delimiter by one character at most that is a delimiter, and both would have been kept. -/
theorem expandLoop_of_not_clean (hd : delimiter ≠ ascii ';') (hne : ∀ name, ref name ≠ some [])
    (hgood : ∀ v name replacement, ref name = some replacement →
      replace v name = replacement ∧ delimiter ∉ name)
    (hsmall : ∀ v name, (delimiter ∈ v → v = [delimiter]) →
      delimiter ∈ replace v name → replace v name = [delimiter]) :
    ∀ str, ¬ Clean delimiter ref str → ∀ fuel v, str.length ≤ fuel →
      (delimiter ∈ v → v = [delimiter]) →
      Lighter delimiter (expandLoop delimiter replace fuel v str)
        (replaceRefs delimiter ref 0 str) := by
  intro str
  induction str using tokenInduction delimiter with
  | none str h =>
    intro hclean
    refine absurd (fun rest hs => ?_) hclean
    exact absurd (hs.subset mem_cons_self) h
  | last before behind hb h =>
    intro hclean
    refine absurd (Clean.append hb fun rest hs hmem => ?_) hclean
    rcases suffix_cons_iff.1 hs with heq | hs
    · exact absurd ((List.cons.inj heq).2 ▸ hmem) h
    · exact absurd (hs.subset (mem_cons_of_mem _ hmem)) h
  | step before name rest hb h ih =>
    intro hclean fuel v hfuel hv
    obtain ⟨fuel, rfl⟩ : ∃ f, fuel = f + 1 := ⟨fuel - 1, by simp at hfuel; omega⟩
    have hfuel' : rest.length ≤ fuel := by
      simp at hfuel
      omega
    have hw := hsmall v name hv
    rw [expandLoop_step fuel hb h, replaceRefs_before hb]
    refine Lighter.append ?_ before
    cases href : ref name with
    | some replacement =>
      have hrest : ¬ Clean delimiter ref rest := fun hrest =>
        hclean (.append hb (.cons h hd href (hgood v name _ href).2 hrest))
      rw [replaceRefs_some h href]
      rw [(hgood v name _ href).1] at hw ⊢
      exact (ih hrest fuel _ hfuel' hw).append _
    | none =>
      obtain ⟨kept, hkept, heq⟩ := replaceRefs_name h rest hd hne
      rw [replaceRefs_none h href, heq]
      refine Lighter.of_kept hw hkept ?_
      by_cases hrest : Clean delimiter ref rest
      · exact .inl (expandLoop_of_clean (fun v n r hr => (hgood v n r hr).1) rest hrest fuel _ hfuel')
      · exact .inr (ih hrest fuel _ hfuel' hw)

/-! ### The replacements -/

theorem utf8_ne_nil (n : ℕ) : utf8 n ≠ [] := by
  unfold utf8
  split_ifs <;> exact cons_ne_nil _ _

theorem charRef_eq_some {replacement : List Byte} :
    charRef name = some replacement ↔ ∃ n, codePoint name = some n ∧ IsScalar n ∧
      utf8 n = replacement := by
  unfold charRef
  rw [Option.bind_eq_some_iff]
  simp only [Option.ite_none_right_eq_some, Option.some.injEq]

theorem hexDigit_facts : ∀ c : Byte, (hex2dec c).toNat < 16 ∧ (IsHexDigit c → c ≠ ascii '&') := by
  decide +kernel

theorem digit_facts : ∀ c : Byte, IsDigit c → c ≠ ascii '&' ∧ c ≠ ascii 'x' ∧ isSpace c = false ∧
    c ≠ ascii '-' ∧ c ≠ ascii '+' := by
  decide +kernel

/-- A digit more, where the number may wrap around. -/
theorem toNat_hex (l : List Byte) : ∀ (character : BitVec 32) (n : ℕ),
    character.toNat = n % 2 ^ 32 →
    (l.foldl (fun (character : BitVec 32) c => (character <<< 4) ||| hex2dec c) character).toNat =
      hexValue n l % 2 ^ 32 := by
  induction l with
  | nil => exact fun _ _ h => h
  | cons c l ih =>
    intro character n h
    refine ih _ _ ?_
    have hshift : (character <<< 4).toNat = 2 ^ 4 * (character.toNat % 2 ^ 28) := by
      rw [BitVec.toNat_shiftLeft, Nat.shiftLeft_eq]
      omega
    rw [BitVec.toNat_or, hshift, ← Nat.two_pow_add_eq_or_of_lt (hexDigit_facts c).1, h]
    change _ = (16 * n + (hex2dec c).toNat) % 2 ^ 32
    have := (hexDigit_facts c).1
    omega

theorem atoi_digits {c : Byte} (hdigits : ∀ d ∈ c :: rest, IsDigit d)
    (h : digits 0 (c :: rest) < 2 ^ 31) : (atoi (c :: rest)).toNat = digits 0 (c :: rest) := by
  obtain ⟨-, -, hspace, hminus, hplus⟩ := digit_facts c (hdigits c mem_cons_self)
  rw [atoi, dropWhile_cons_of_neg (by simp [hspace])]
  simp only [if_neg hminus, if_neg hplus, BitVec.toNat_ofNat]
  omega

theorem codePoint_cases {n : ℕ} (h : codePoint name = some n) : ∃ c rest,
    name = ascii '#' :: c :: rest ∧
    (c = ascii 'x' ∧ (∀ d ∈ rest, IsHexDigit d) ∧ hexValue 0 rest = n ∨
      (∀ d ∈ c :: rest, IsDigit d) ∧ digits 0 (c :: rest) = n) := by
  rcases name with _ | ⟨hash, _ | ⟨c, rest⟩⟩
  · cases h
  · cases h
  obtain ⟨hhash, hif⟩ := Option.ite_none_left_eq_some.1 h
  obtain rfl := not_not.1 hhash
  refine ⟨c, rest, rfl, ?_⟩
  split at hif
  · next hhex => exact .inl ⟨hhex.1, hhex.2.2, Option.some.inj hif⟩
  · obtain ⟨hdigits, hif⟩ := Option.ite_none_right_eq_some.1 hif
    exact .inr ⟨hdigits, Option.some.inj hif⟩

theorem expandCharRef_eq {replacement : List Byte} (h : charRef name = some replacement) :
    name.head? = some (ascii '#') ∧ expandCharRef name = replacement ∧ ascii '&' ∉ name := by
  obtain ⟨n, hn, hscalar, rfl⟩ := charRef_eq_some.1 h
  have hlt := hscalar.2.1
  have hvalue : ∀ u : BitVec 32, u.toNat = n → Xml.appendChar u = utf8 n := by
    rintro u rfl
    exact appendChar_eq hscalar
  obtain ⟨c, rest, rfl, ⟨rfl, hhex, hn⟩ | ⟨hdigits, hn⟩⟩ := codePoint_cases hn
  · refine ⟨rfl, hvalue _ ?_, fun hmem => ?_⟩
    · rw [← hn] at hlt ⊢
      exact (toNat_hex rest 0#32 0 rfl).trans (Nat.mod_eq_of_lt (by omega))
    · simp only [mem_cons, show ascii '&' ≠ ascii '#' by decide,
        show ascii '&' ≠ ascii 'x' by decide, false_or] at hmem
      exact (hexDigit_facts _).2 (hhex _ hmem) rfl
  · have hx := (digit_facts c (hdigits c mem_cons_self)).2.1
    refine ⟨rfl, hvalue _ ?_, fun hmem => ?_⟩
    · have hdecimal : (ascii '#' :: c :: rest)[1]? ≠ some (ascii 'x') :=
        fun heq => hx (Option.some.inj heq)
      rw [if_neg hdecimal]
      rw [← hn] at hlt ⊢
      exact atoi_digits hdigits (by omega)
    · rcases mem_cons.1 hmem with heq | hmem
      · exact absurd heq (by decide)
      · exact (digit_facts _ (hdigits _ hmem)).1 rfl

/-- A byte of a character of more than one is not a delimiter. -/
theorem ne_setWidth (mark : BitVec 32) (h : mark.getLsbD 7 = true) (x : BitVec 32) :
    ascii '&' ≠ (mark ||| x).setWidth 8 := by
  intro heq
  have hbit := congrArg (·.getLsbD 7) heq
  rw [BitVec.getLsbD_setWidth, BitVec.getLsbD_or, h, Bool.true_or] at hbit
  exact absurd hbit (by decide)

theorem expandCharRef_small (h : ascii '&' ∈ expandCharRef name) :
    expandCharRef name = [ascii '&'] := by
  obtain ⟨u, hu⟩ : ∃ u, expandCharRef name = Xml.appendChar u := ⟨_, rfl⟩
  rw [hu] at h ⊢
  unfold Xml.appendChar at *
  split_ifs at * with h0 h1 h2 h3 h4
  · cases h
  · rw [mem_singleton.1 h]
  all_goals
    simp only [mem_cons, not_mem_nil, ne_setWidth 0xc0#32 rfl, ne_setWidth 0xe0#32 rfl,
      ne_setWidth 0xf0#32 rfl, ne_setWidth 0x80#32 rfl, or_false] at h

theorem charRef_ne_nil : charRef name ≠ some [] := fun h => by
  obtain ⟨n, -, -, h⟩ := charRef_eq_some.1 h
  exact utf8_ne_nil n h

/-! ### Exactly when -/

/-- Where every replacement is one, the loop is right in the clean strings and in no other. -/
theorem expandLoop_iff (hd : delimiter ≠ ascii ';') (hne : ∀ name, ref name ≠ some [])
    (hgood : ∀ v name replacement, ref name = some replacement →
      replace v name = replacement ∧ delimiter ∉ name)
    (hsmall : ∀ v name, (delimiter ∈ v → v = [delimiter]) →
      delimiter ∈ replace v name → replace v name = [delimiter]) :
    expandLoop delimiter replace str.length [] str = replaceRefs delimiter ref 0 str ↔
      Clean delimiter ref str := by
  refine ⟨fun heq => by_contra fun hclean => ?_, fun hclean =>
    expandLoop_of_clean (fun v n r hr => (hgood v n r hr).1) str hclean _ _ le_rfl⟩
  have hlight := expandLoop_of_not_clean hd hne hgood hsmall str hclean _ _ le_rfl
    (fun h => absurd h not_mem_nil)
  unfold Lighter at hlight
  rw [heq] at hlight
  omega

theorem Clean.congr {ref' : List Byte → Option (List Byte)}
    (h : ∀ name, (ref name).isSome = (ref' name).isSome) (hclean : Clean delimiter ref str) :
    Clean delimiter ref' str :=
  fun behind hs hmem => h _ ▸ hclean behind hs hmem

theorem isSome_reference (general parameter general' parameter' : List Byte → List Byte)
    (name : List Byte) : (reference general parameter delimiter name).isSome =
      (reference general' parameter' delimiter name).isSome := by
  unfold reference
  split_ifs <;> rfl

section Entities

variable {general parameter : List Byte → List Byte}
  (hdelimiter : delimiter = ascii '&' ∨ delimiter = ascii '%')
include hdelimiter

theorem entityReplacement_eq {replacement : List Byte}
    (h : reference general parameter delimiter name = some replacement) :
    entityReplacement general parameter delimiter name = replacement ∧ delimiter ∉ name := by
  unfold reference at h
  unfold entityReplacement
  split at h
  · next hchar =>
    obtain ⟨hhead, hvalue, hmem⟩ := expandCharRef_eq h
    rw [if_pos ⟨hhead, hchar.1⟩]
    exact ⟨hvalue, hchar.1 ▸ hmem⟩
  · next hchar =>
    obtain ⟨hname, h⟩ := Option.ite_none_right_eq_some.1 h
    rw [if_neg fun h => hchar ⟨h.2, h.1⟩]
    refine ⟨Option.some.inj h, fun hmem => ?_⟩
    obtain ⟨-, hand, hpercent, -⟩ := hname.2 _ hmem
    exact hdelimiter.elim hand hpercent

theorem expandEntitiesIn_iff :
    (∀ general parameter, expandEntitiesIn general parameter str delimiter =
      replaceRefs delimiter (reference general parameter delimiter) 0 str) ↔
      Clean delimiter (reference id id delimiter) str := by
  refine ⟨fun heq => ?_, fun hclean general parameter => ?_⟩
  · -- a context that replaces by a `;` tells the texts apart
    have hd : delimiter ≠ ascii ';' := by
      rcases hdelimiter with rfl | rfl <;> decide
    refine Clean.congr (isSome_reference (fun _ => [ascii ';']) (fun _ => [ascii ';']) _ _)
      ((expandLoop_iff hd (fun name h => ?_) (fun _ _ _ h => entityReplacement_eq hdelimiter h)
        fun _ name _ hmem => ?_).1 (heq _ _))
    · unfold reference at h
      split at h
      · exact charRef_ne_nil h
      · obtain ⟨-, h⟩ := Option.ite_none_right_eq_some.1 h
        rw [ite_self] at h
        cases h
    · unfold entityReplacement at *
      by_cases hchar : name.head? = some (ascii '#') ∧ delimiter = ascii '&'
      · rw [if_pos hchar] at hmem ⊢
        rw [hchar.2] at hmem ⊢
        exact expandCharRef_small hmem
      · rw [if_neg hchar, ite_self] at hmem
        exact absurd (mem_singleton.1 hmem) hd
  · exact expandLoop_of_clean (fun _ _ _ h => (entityReplacement_eq hdelimiter h).1) str
      (hclean.congr (isSome_reference _ _ _ _)) _ _ le_rfl

end Entities

end OpenBinder.Xml
