import OpenBinder.Xml.AttributesLaw

/-!
# What the callbacks keep, the parser keeps

* `Contract`: what is asked of the callbacks of a context.
* `AttributeDecl.unfinished`: the attribute list that is read behind its `NUL`.
* `XMLParserCore.Guarded`: what a character must not do for the parser to use only memory that is
  there.
* `XMLParserCore.handle_ends`: a character; `processInputBuffer_ends`: a buffer.
-/

namespace OpenBinder.Xml

open Lib Fallible

variable {σ : Type}

/-- **What is asked of a context**: its callbacks keep an invariant, an end tag may only be reported
where that is in order, and it is behind a start tag. -/
structure Contract (context : Context σ) (I EndOk : σ → Prop) (E : Stop → σ → Prop) : Prop where
  startTag : ∀ name attributes s, I s →
    Ends (context (.startTag name attributes)) s (fun _ s' => I s' ∧ EndOk s') E
  endTag : ∀ name s, I s → EndOk s → Ends (context (.endTag name)) s (fun _ s' => I s') E
  other : ∀ callback, (∀ name attributes, callback ≠ .startTag name attributes) →
    (∀ name, callback ≠ .endTag name) → ∀ s, I s → Ends (context callback) s (fun _ s' => I s') E
  error : ∀ err s, I s → E (.error err) s

/-! ### Declarations -/

namespace AttributeDecl

/-- A character of the declarations, where no callback fails. -/
def next (d : AttributeDecl) (c : Byte) : Option AttributeDecl :=
  (d.step (fun _ => pure () : Context Unit) [] c ()).1.toOption

/-- Nothing ends the loop here, unless there was no definition before. -/
def unfinished (d : AttributeDecl) : Bool :=
  match d.state with
  | .name | .firstType | .typeEnum | .type | .def' => true
  | .mode => !(d.mode = literal ['R', 'E', 'Q', 'U', 'I', 'R', 'E', 'D'] ||
      d.mode = literal ['I', 'M', 'P', 'L', 'I', 'E', 'D'])
  | .begin => !d.okayToEnd
  | _ => false

end AttributeDecl

/-- **An attribute list ends**: it has no definition that is finished, or no other behind them. -/
def AttributesEnd (data : List Byte) : Prop :=
  ∀ d, (mush data).foldlM AttributeDecl.next .init = some d → d.err ≠ 0 ∨ d.unfinished = false

section

variable {context : Context σ} {I EndOk : σ → Prop} {E : Stop → σ → Prop}

theorem Contract.entityDecl (h : Contract context I EndOk E) (parameter : Bool)
    (name value : List Byte) (only : Bool) {s : σ} (hs : I s) :
    Ends (handleEntityDecl context parameter name value only) s (fun _ s' => I s') E := by
  have hloop : Ends (value.foldlM EntityDecl.step .init) s (fun _ s' => I s') E := by
    refine ends_foldlM (fun d c s hs => ?_) value EntityDecl.init s hs
    unfold EntityDecl.step
    split
    all_goals
      repeat' refine ends_ite (fun _ => ?_) fun _ => ?_
      all_goals first | exact ends_pure hs | exact ends_stop (h.error _ _ hs)
  refine hloop.bind fun d s hs => ?_
  repeat' refine ends_ite (fun _ => ?_) fun _ => ?_
  all_goals first
    | exact ends_stop (h.error _ _ hs)
    | exact h.other _ (by simp) (by simp) _ hs

namespace AttributeDecl

section

variable (h : Contract context I EndOk E) (element : List Byte) (d : AttributeDecl)
include h element d

theorem doneWithDecl_ends {s : σ} (hs : I s) : Ends (d.doneWithDecl context element) s
      (fun d' s' => I s' ∧ d' = ⟨.begin, [], [], [], [], true, 0⟩) E :=
  (h.other _ (by simp) (by simp) _ hs).bind fun _ _ hs => ends_pure ⟨hs, rfl⟩

theorem readModeFirst_ends (c : Byte) {s : σ} (hs : I s) :
    Ends (d.readModeFirst context element c) s (fun d' s' => I s' ∧
      (d.readModeFirst (fun _ => pure () : Context Unit) [] c ()).1 = .ok d') E := by
  unfold readModeFirst
  refine ends_ite (fun hc => ?_) fun hc => ends_ite (fun hc' => ?_) fun hc' => ?_
  · exact ends_pure ⟨hs, by rw [if_pos hc]; rfl⟩
  · exact ends_pure ⟨hs, by rw [if_neg hc, if_pos hc']; rfl⟩
  · refine (doneWithDecl_ends h element d hs).mono (fun d' s' hd => ⟨hd.1, ?_⟩) fun _ _ h => h
    rw [if_neg hc, if_neg hc', hd.2]
    rfl

theorem step_ends (c : Byte) {s : σ} (hs : I s) :
    Ends (d.step context element c) s (fun d' s' => I s' ∧ d.next c = some d') E := by
  have hdone : (d.doneWithDecl (fun _ => pure () : Context Unit) [] ()).1 =
      .ok ⟨.begin, [], [], [], [], true, 0⟩ := rfl
  have hmode : ∀ d : AttributeDecl, Ends (d.readModeFirst context element c) s (fun d' s' => I s' ∧
      (d.readModeFirst (fun _ => pure () : Context Unit) [] c ()).1.toOption = some d') E := by
    refine fun d => (readModeFirst_ends h element d c hs).mono (fun d' s' hd => ⟨hd.1, ?_⟩)
      fun _ _ h => h
    rw [hd.2]
    rfl
  cases hstate : d.state
  case modeFirst =>
    simp only [next, step, hstate]
    exact hmode d
  case eatSpace =>
    simp only [next, step, hstate]
    refine ends_ite (fun hc => ?_) fun hc => ?_
    · exact ends_pure ⟨hs, by simp [Except.toOption, hc]⟩
    · rw [if_neg hc]
      exact hmode _
  case mode =>
    simp only [next, step, hstate]
    refine ends_ite (fun hend => ?_) fun hend => ?_
    · rw [if_pos hend]
      refine ends_ite (fun hm => ?_) fun hm => ?_
      · rw [if_pos hm, hdone]
        exact (doneWithDecl_ends h element d hs).mono (fun d' s' hd => ⟨hd.1, by rw [hd.2]; rfl⟩)
          fun _ _ h => h
      · rw [if_neg hm]
        exact ends_pure ⟨hs, rfl⟩
    · rw [if_neg hend]
      exact ends_pure ⟨hs, rfl⟩
  all_goals
    simp only [next, step, hstate]
    repeat' refine ends_ite (fun _ => ?_) fun _ => ?_
    all_goals first
      | exact ends_pure ⟨hs, by simp [Except.toOption, *]⟩
      | exact ends_stop (h.error _ _ hs)
      | exact (doneWithDecl_ends h element d hs).mono
          (fun d' s' hd => ⟨hd.1, by simp [Except.toOption, hd.2, *]⟩) fun _ _ h => h

end

theorem next_zero {d d' : AttributeDecl} (h : d.next 0 = some d') :
    d'.okayToEnd = true ∨ d'.err = d.err ∧ d.unfinished = true := by
  have hws : isWhitespace 0 = false := by decide
  cases hstate : d.state
  case begin =>
    simp only [next, step, hstate, readName, hws, if_true, Bool.false_eq_true, if_false] at h
    obtain ⟨⟩ := h
    cases hokay : d.okayToEnd with
    | true => exact .inl rfl
    | false => exact .inr ⟨rfl, by simp [unfinished, hstate, hokay]⟩
  case mode =>
    by_cases hm : d.mode = literal ['R', 'E', 'Q', 'U', 'I', 'R', 'E', 'D'] ∨
        d.mode = literal ['I', 'M', 'P', 'L', 'I', 'E', 'D']
    · obtain rfl : ⟨.begin, [], [], [], [], true, 0⟩ = d' := by
        simp only [next, step, hstate, or_true, if_true, if_pos hm] at h
        exact Option.some.inj h
      exact .inl rfl
    · right
      simp only [next, step, hstate, or_true, if_true, if_neg hm] at h
      obtain ⟨⟩ := h
      refine ⟨rfl, ?_⟩
      simpa [unfinished, hstate] using hm
  case eatSpace | modeFirst =>
    left
    simp only [next, step, hstate, hws] at h
    obtain ⟨⟩ := h
    rfl
  case defFirst =>
    simp only [next, step, hstate] at h
    cases h
  all_goals
    right
    simp only [next, step, hstate, readName, hws] at h
    obtain ⟨⟩ := h
    exact ⟨rfl, by simp [unfinished, hstate]⟩

end AttributeDecl

theorem Contract.attributeDecl (h : Contract context I EndOk E) (element data : List Byte)
    {s : σ} (hs : I s) (hfault : ¬ AttributesEnd data → ∀ s, I s → E .fault s) :
    Ends (handleAttributeDecl context element data) s (fun _ s' => I s') E := by
  have hloop : ∀ (l : List Byte) (d : AttributeDecl) (s : σ), I s →
      ((∀ d', l.foldlM AttributeDecl.next d = some d' → d'.err ≠ 0 ∨ d'.unfinished = false) ∨
        ∀ s, I s → E .fault s) →
      Ends (attributeDeclLoop context element d l) s (fun _ s' => I s') E := by
    intro l
    induction l with
    | nil =>
      intro d s hs hend
      refine (AttributeDecl.step_ends h element d 0 hs).bind fun d' s ⟨hs, hnext⟩ => ?_
      refine ends_ite (fun _ => ends_pure hs) fun hokay => ?_
      refine ends_ite (fun _ => ends_stop (h.error _ _ hs)) fun herr => ends_stop ?_
      rcases hend with hend | hend
      · -- the character behind the `NUL` is not read
        obtain ⟨herr', hunfinished⟩ := (AttributeDecl.next_zero hnext).resolve_left hokay
        rw [herr'] at herr
        rw [(hend d rfl).resolve_left herr] at hunfinished
        cases hunfinished
      · exact hend s hs
    | cons c rest ih =>
      intro d s hs hend
      refine (AttributeDecl.step_ends h element d c hs).bind fun d' s ⟨hs, hnext⟩ => ?_
      refine ih d' s hs (hend.imp_left fun hend d'' hd => hend d'' ?_)
      rw [List.foldlM_cons, hnext]
      exact hd
  refine hloop _ _ s hs ?_
  by_cases hend : AttributesEnd data
  · exact .inl hend
  · exact .inr (hfault hend)

/-! ### Characters -/

namespace XMLParserCore

/-- **What the parser is always in**: a section starts somewhere, and the attributes can be joined
to. -/
structure Valid (m : XMLParserCore) : Prop where
  long : m.state = .inComment ∨ m.state = .inCdata → m.longStringData.isSome = true
  attributes : m.stringMap.IsAttributes

/-- **What a character must not do**: end a section in the first two bytes of a buffer, or end an
attribute list that is read behind its `NUL`. -/
structure Guarded (m : XMLParserCore) (pos : ℕ) (c : Byte) : Prop where
  comment : m.state = .inComment →
    (m.someChars.2.1, m.someChars.2.2, c) = (ascii '-', ascii '-', ascii '>') → 2 ≤ pos
  cdata : m.state = .inCdata →
    (m.someChars.2.1, m.someChars.2.2, c) = (ascii ']', ascii ']', ascii '>') → 2 ≤ pos
  attlist : m.state = .inAttlistDecl → m.subState = .inSpec → c = ascii '>' →
    AttributesEnd m.currentToken

/-- The parser after a step: it is in what it is always in, and has the same buffer. -/
structure Next (m m' : XMLParserCore) : Prop where
  valid : m'.Valid
  length : m'.parseText.length = m.parseText.length

variable {m m' : XMLParserCore} {s : σ} {pos : ℕ} {c : Byte}

theorem Valid.init (dtdOnly : Bool) (flags : BitVec 32) : (init dtdOnly flags).Valid where
  long := fun h => by rcases h with h | h <;> cases h
  attributes := fun _ hp => absurd hp List.not_mem_nil

theorem Valid.next (hm : m.Valid) (hstate : m'.state ≠ .inComment ∧ m'.state ≠ .inCdata)
    (hmap : m'.stringMap = m.stringMap) (htext : m'.parseText = m.parseText) : m.Next m' where
  valid := ⟨fun h => (h.elim hstate.1 hstate.2).elim, hmap ▸ hm.attributes⟩
  length := by rw [htext]

theorem reportText_ends (h : Contract context I EndOk E) (m : XMLParserCore) (pos : ℕ) (hs : I s) :
    Ends (m.reportText context pos) s (fun m' s' => I s' ∧ m'.stringMap = m.stringMap ∧
      m'.parseText = m.parseText) E := by
  unfold reportText
  split
  · exact (h.other _ (by simp) (by simp) _ hs).bind fun _ _ hs => ends_pure ⟨hs, rfl, rfl⟩
  · exact ends_pure ⟨hs, rfl, rfl⟩

theorem call_ends (h : Contract context I EndOk E) (hs : I s) (callback : Callback)
    (hstart : ∀ name attributes, callback ≠ .startTag name attributes)
    (hend : ∀ name, callback ≠ .endTag name) (hnext : m.Next m') :
    Ends (do context callback; pure m') s (fun m' s' => I s' ∧ m.Next m') E :=
  (h.other callback hstart hend s hs).bind fun _ _ hs => ends_pure ⟨hs, hnext⟩

theorem handleUnknown_ends (h : Contract context I EndOk E) (hm : m.Valid)
    (hstate : m.state = .inUnknown) (hs : I s) :
    Ends (m.handleUnknown context pos c) s (fun m' s' => I s' ∧ m.Next m') E := by
  unfold handleUnknown
  refine ends_ite (fun _ => ?_) fun _ => ends_ite (fun _ => ?_) fun _ => ends_ite (fun _ => ?_)
    fun _ => ends_ite (fun _ => ?_) fun _ => ends_ite (fun _ => ?_) fun _ => ends_ite (fun _ => ?_)
      fun _ => ?_
  · refine (reportText_ends h m pos hs).bind fun m' s ⟨hs, hmap, htext⟩ => ?_
    exact ends_pure ⟨hs, hm.next (by simp) hmap htext⟩
  · exact call_ends h hs _ (by simp) (by simp) (hm.next (by simp [hstate]) rfl rfl)
  · exact call_ends h hs _ (by simp) (by simp) (hm.next (by simp [hstate]) rfl rfl)
  · exact ends_pure ⟨hs, hm.next (by simp) rfl rfl⟩
  · refine (reportText_ends h m pos hs).bind fun m' s ⟨hs, hmap, htext⟩ => ?_
    exact ends_pure ⟨hs, hm.next (by simp) hmap htext⟩
  · exact ends_pure ⟨hs, hm.next (by simp [hstate]) rfl rfl⟩
  · exact ends_pure ⟨hs, hm.next (by simp [hstate]) rfl rfl⟩

theorem handleUnknownMarkup_next (hm : m.Valid) :
    m.Next (m.handleUnknownMarkup c) := by
  unfold handleUnknownMarkup
  repeat' split
  · exact hm.next (by simp) rfl rfl
  · exact hm.next (by simp) rfl rfl
  · exact hm.next (by simp) rfl rfl
  · exact ⟨⟨by simp, fun _ hp => absurd hp List.not_mem_nil⟩, rfl⟩

section

variable (h : Contract context I EndOk E) (hm : m.Valid)
include h hm

theorem handleUnknownMarkupGtE_ends (hstate : m.state = .inUnknownMarkupGtE) (hs : I s) :
    Ends (m.handleUnknownMarkupGtE pos c) s (fun m' s' => I s' ∧ m.Next m') E := by
  unfold handleUnknownMarkupGtE
  repeat' refine ends_ite (fun _ => ?_) fun _ => ?_
  -- a section starts here
  · exact ends_pure ⟨hs, ⟨fun _ => rfl, hm.attributes⟩, rfl⟩
  · exact ends_pure ⟨hs, ⟨fun _ => rfl, hm.attributes⟩, rfl⟩
  all_goals first
    | exact ends_stop (h.error _ _ hs)
    | exact ends_pure ⟨hs, hm.next (by simp [hstate]) rfl rfl⟩

theorem handleInstruction_ends (hstate : m.state = .inProcessingInstruction) (hs : I s) :
    Ends (m.handleInstruction context c) s (fun m' s' => I s' ∧ m.Next m') E := by
  unfold handleInstruction
  refine ends_ite (fun _ => ?_) fun _ => ends_ite (fun _ => ?_) fun _ => ends_ite (fun _ => ?_)
    fun _ => ?_
  · exact ends_pure ⟨hs, hm.next (by simp [hstate]) rfl rfl⟩
  · exact ends_pure ⟨hs, hm.next (by simp [hstate]) rfl rfl⟩
  · exact call_ends h hs _ (by simp) (by simp) (hm.next (by simp) rfl rfl)
  · exact ends_pure ⟨hs, hm.next (by simp [hstate]) rfl rfl⟩

theorem elementStart_ends (name : List Byte) (hs : I s) :
    Ends (handleElementStart context name m.stringMap m.flags) s
      (fun _ s' => I s' ∧ EndOk s') E := by
  obtain ⟨r, hrun⟩ := handleElementStart_run context name hm.attributes m.flags s
  unfold Ends
  rw [hrun]
  exact h.startTag name r s hs

theorem handleStartName_ends (hstate : m.state = .inElementStartName) (hs : I s) :
    Ends (m.handleStartName context c) s (fun m' s' => I s' ∧ m.Next m') E := by
  unfold handleStartName
  refine ends_ite (fun _ => ?_) fun _ => ends_ite (fun _ => ?_) fun _ => ends_ite (fun _ => ?_)
    fun _ => ?_
  · exact ends_pure ⟨hs, hm.next (by simp) rfl rfl⟩
  · exact (elementStart_ends h hm _ hs).bind fun _ _ hs =>
      ends_pure ⟨hs.1, hm.next (by simp) rfl rfl⟩
  · exact ends_pure ⟨hs, hm.next (by simp) rfl rfl⟩
  · exact ends_pure ⟨hs, hm.next (by simp [hstate]) rfl rfl⟩

theorem handleAttribute_ends (hstate : m.state = .inElementStartTag) (hs : I s) :
    Ends (m.handleAttribute c) s (fun m' s' => I s' ∧ m.Next m') E := by
  cases hsub : m.subState
  case inValue =>
    simp only [handleAttribute, hsub]
    refine ends_ite (fun _ => ends_ite (fun _ => ends_stop (h.error _ _ hs)) fun _ => ?_) fun _ => ?_
    · obtain ⟨r, hr, hjoin⟩ := @joinItem_run σ m.stringMap (stringValue m.currentSubName)
        hm.attributes (isPlain_string _).toIsKey m.currentToken s
      unfold Ends
      rw [bind_ok hjoin]
      exact ⟨hs, ⟨by simp [hstate], hr⟩, rfl⟩
    · exact ends_pure ⟨hs, hm.next (by simp [hstate]) rfl rfl⟩
  all_goals
    simp only [handleAttribute, hsub]
    repeat' refine ends_ite (fun _ => ?_) fun _ => ?_
    all_goals first
      | exact ends_stop (h.error _ _ hs)
      | exact ends_pure ⟨hs, hm.next (by simp [hstate]) rfl rfl⟩

theorem handleStartTag_ends (hstate : m.state = .inElementStartTag) (hs : I s) :
    Ends (m.handleStartTag context c) s (fun m' s' => I s' ∧ m.Next m') E := by
  unfold handleStartTag
  refine ends_ite (fun _ => ?_) fun _ => ends_ite (fun _ => ?_) fun _ => ends_ite (fun _ => ?_)
    fun _ => ?_
  · exact ends_pure ⟨hs, hm.next (by simp [hstate]) rfl rfl⟩
  · refine (elementStart_ends h hm _ hs).bind fun _ s hs => ?_
    -- an end tag is behind its start tag
    refine (ends_when (fun _ => h.endTag _ s hs.1 hs.2) hs.1).bind fun _ _ hs => ?_
    exact ends_pure ⟨hs, hm.next (by simp) rfl rfl⟩
  · have hvalid : Valid { m with
        nearingEnd := false, currentToken := m.currentToken ++ [ascii '/'] } :=
      ⟨by simp [hstate], hm.attributes⟩
    exact (handleAttribute_ends h hvalid hstate hs).mono (fun _ _ hn => ⟨hn.1, hn.2.valid,
      hn.2.length⟩) fun _ _ h => h
  · exact handleAttribute_ends h hm hstate hs

theorem handleEndTag_ends (hstate : m.state = .inElementEndTag) (hs : I s)
    (hend : c = ascii '>' → EndOk s) :
    Ends (m.handleEndTag context c) s (fun m' s' => I s' ∧ m.Next m') E := by
  unfold handleEndTag
  refine ends_ite (fun hc => ?_) fun _ => ends_ite (fun _ => ?_) fun _ => ends_ite (fun _ => ?_)
    fun _ => ?_
  · exact (h.endTag _ s hs (hend hc)).bind fun _ _ hs =>
      ends_pure ⟨hs, hm.next (by simp) rfl rfl⟩
  · exact ends_pure ⟨hs, hm.next (by simp [hstate]) rfl rfl⟩
  · exact ends_pure ⟨hs, hm.next (by simp [hstate]) rfl rfl⟩
  · exact ends_pure ⟨hs, hm.next (by simp [hstate]) rfl rfl⟩

end

/-- **A character of a comment or a section**, which does not end in the first two bytes. -/
theorem handleSection_ends (h : Contract context I EndOk E) (callback : List Byte → Callback)
    (hcallback : ∀ data, (∀ name attributes, callback data ≠ .startTag name attributes) ∧
      ∀ name, callback data ≠ .endTag name) (mark : Byte) (hm : m.Valid)
    (hstate : m.state = .inComment ∨ m.state = .inCdata) (hs : I s)
    (hpos : pos < m.parseText.length)
    (hguard : (m.someChars.2.1, m.someChars.2.2, c) = (mark, mark, ascii '>') →
      2 ≤ pos ∨ ∀ s, I s → E .fault s) :
    Ends (handleSection context callback mark m pos c) s (fun m' s' => I s' ∧ m.Next m') E := by
  have hother := fun data s hs => h.other (callback data) (hcallback data).1 (hcallback data).2 s hs
  obtain ⟨long, hlong⟩ := Option.isSome_iff_exists.1 (hm.long hstate)
  have hcarry : Ends (reportCarryover context callback { m with
        someChars := (m.someChars.2.1, m.someChars.2.2, c) }) s
      (fun m' s' => I s' ∧ m'.someChars = (m.someChars.2.1, m.someChars.2.2, c) ∧
        m'.longStringData = some long ∧ m'.stringMap = m.stringMap ∧
          m'.parseText = m.parseText) E := by
    refine ends_ite (fun _ => ?_) fun _ => ends_pure ⟨hs, rfl, hlong, rfl, rfl⟩
    exact (hother _ s hs).bind fun _ _ hs => ends_pure ⟨hs, rfl, hlong, rfl, rfl⟩
  refine hcarry.bind fun m' s ⟨hs, hchars, hlong', hmap, htext⟩ => ?_
  refine ends_ite (fun hc => ?_) fun hc => ?_
  · rw [hchars] at hc
    have hwrite : Ends (m'.write ((pos : ℤ) - 2) 0) s (fun m'' s' => I s' ∧
        m''.longStringData = some long ∧ m''.stringMap = m.stringMap ∧
          m''.parseText.length = m.parseText.length) E := by
      refine ends_ite (fun _ => ends_pure ⟨hs, hlong', hmap, by simp [htext]⟩) fun hout => ?_
      refine ends_stop ((hguard hc).elim (fun htwo => ?_) fun hfault => hfault s hs)
      rw [htext] at hout
      exact absurd (by omega) hout
    refine hwrite.bind fun m'' s ⟨hs, hlong'', hmap'', hlength⟩ => ?_
    simp only [hlong'']
    refine (hother _ s hs).bind fun _ _ hs => ends_pure ⟨hs, ⟨by simp, ?_⟩, hlength⟩
    rw [hmap'']
    exact hm.attributes
  · exact ends_pure ⟨hs, ⟨fun _ => by rw [hlong']; rfl, hmap ▸ hm.attributes⟩, by rw [htext]⟩

theorem handleDoctypeEnd_ends (h : Contract context I EndOk E) (hm : m.Valid) (externalID : Bool)
    (hs : I s) :
    Ends (m.handleDoctypeEnd context c externalID) s (fun m' s' => I s' ∧ m.Next m') E := by
  refine (h.other _ (by simp) (by simp) s hs).bind fun _ s hs => ?_
  refine (ends_when (fun _ => h.entityDecl _ _ _ _ hs) hs).bind fun _ s hs => ?_
  refine ends_ite (fun _ => ?_) fun _ => ?_
  · exact call_ends h hs _ (by simp) (by simp) (hm.next (by simp) rfl rfl)
  · exact call_ends h hs _ (by simp) (by simp) (hm.next (by simp) rfl rfl)

theorem handleDoctype_ends (h : Contract context I EndOk E) (hm : m.Valid)
    (hstate : m.state = .inDoctype) (hs : I s) :
    Ends (m.handleDoctype context c) s (fun m' s' => I s' ∧ m.Next m') E := by
  cases hsub : m.subState
  case inDoctypeName | inWhitespace2 | inExternalID =>
    simp only [handleDoctype, hsub]
    refine ends_ite (fun _ => handleDoctypeEnd_ends h hm _ hs) fun _ => ?_
    repeat' refine ends_ite (fun _ => ?_) fun _ => ?_
    all_goals exact ends_pure ⟨hs, hm.next (by simp [hstate]) rfl rfl⟩
  all_goals
    simp only [handleDoctype, hsub]
    repeat' refine ends_ite (fun _ => ?_) fun _ => ?_
    all_goals exact ends_pure ⟨hs, hm.next (by simp [hstate]) rfl rfl⟩

theorem Valid.next_decl (hm : m.Valid) (hstate : m.state ≠ .inComment ∧ m.state ≠ .inCdata)
    (h : m'.state = m.state) (hmap : m'.stringMap = m.stringMap)
    (htext : m'.parseText = m.parseText) : m.Next m' :=
  hm.next (by rwa [h]) hmap htext

theorem handleEntityRef_next (hm : m.Valid) (hstate : m.state ≠ .inComment ∧ m.state ≠ .inCdata) :
    m.Next (m.handleEntityRef c) := by
  unfold handleEntityRef
  split
  · exact hm.next_decl hstate rfl rfl rfl
  · exact hm.next_decl hstate rfl rfl rfl

section

variable (finished : XMLParserCore → Parse σ Unit) (hm : m.Valid)
  (hstate : m.state ≠ .inComment ∧ m.state ≠ .inCdata) (hs : I s)
include finished hm hstate hs

theorem handleSpec_ends (hfinished : c = ascii '>' → Ends (finished m) s (fun _ s' => I s') E) :
    Ends (handleSpec finished m c) s (fun m' s' => I s' ∧ m.Next m') E := by
  refine ends_ite (fun _ => ?_) fun _ => ends_ite (fun hc => ?_) fun _ => ?_
  · exact ends_pure ⟨hs, hm.next_decl hstate rfl rfl rfl⟩
  · exact (hfinished hc).bind fun _ _ hs => ends_pure ⟨hs, hm.next (by simp) rfl rfl⟩
  · exact ends_pure ⟨hs, hm.next_decl hstate rfl rfl rfl⟩

theorem handleNamedDecl_ends
    (hfinished : m.subState = .inSpec → c = ascii '>' →
      Ends (finished m) s (fun _ s' => I s') E) :
    Ends (handleNamedDecl finished m c) s (fun m' s' => I s' ∧ m.Next m') E := by
  cases hsub : m.subState
  case inSpec =>
    simp only [handleNamedDecl, hsub]
    exact handleSpec_ends finished hm hstate hs (hfinished hsub)
  case inEntityRef =>
    simp only [handleNamedDecl, hsub]
    exact ends_pure ⟨hs, handleEntityRef_next hm hstate⟩
  all_goals
    simp only [handleNamedDecl, hsub]
    repeat' refine ends_ite (fun _ => ?_) fun _ => ?_
    all_goals exact ends_pure ⟨hs, hm.next_decl hstate rfl rfl rfl⟩

end

section

variable (h : Contract context I EndOk E) (hm : m.Valid)
include h hm

theorem handleEntity_ends (hstate : m.state ≠ .inComment ∧ m.state ≠ .inCdata) (hs : I s) :
    Ends (m.handleEntity context c) s (fun m' s' => I s' ∧ m.Next m') E := by
  cases hsub : m.subState
  case inSpec =>
    simp only [handleEntity, hsub]
    exact handleSpec_ends _ hm hstate hs fun _ => h.entityDecl _ _ _ _ hs
  case inEntityRef =>
    simp only [handleEntity, hsub]
    exact ends_pure ⟨hs, handleEntityRef_next hm hstate⟩
  all_goals
    simp only [handleEntity, hsub]
    repeat' refine ends_ite (fun _ => ?_) fun _ => ?_
    all_goals exact ends_pure ⟨hs, hm.next_decl hstate rfl rfl rfl⟩

theorem handleNotation_ends (hstate : m.state ≠ .inComment ∧ m.state ≠ .inCdata) (hs : I s) :
    Ends (m.handleNotation context c) s (fun m' s' => I s' ∧ m.Next m') E := by
  cases hsub : m.subState
  all_goals
    simp only [handleNotation, hsub]
    repeat' refine ends_ite (fun _ => ?_) fun _ => ?_
    all_goals first
      | exact ends_pure ⟨hs, hm.next_decl hstate rfl rfl rfl⟩
      | exact call_ends h hs _ (by simp) (by simp) (hm.next (by simp) rfl rfl)

theorem handleGeRef_ends (hstate : m.state = .inGeRef) (hs : I s) :
    Ends (m.handleGeRef context c) s (fun m' s' => I s' ∧ m.Next m') E := by
  have hreport : Ends (m.reportGeRef context) s (fun _ s' => I s') E := by
    refine ends_ite (fun _ => ?_) fun _ => ?_
    · exact ends_when (fun _ => h.other _ (by simp) (by simp) s hs) hs
    · exact h.other _ (by simp) (by simp) s hs
  refine ends_ite (fun _ => ?_) fun _ => ?_
  · exact hreport.bind fun _ _ hs => ends_pure ⟨hs, hm.next (by simp) rfl rfl⟩
  · exact ends_pure ⟨hs, hm.next (by simp [hstate]) rfl rfl⟩

theorem handle_ends (hs : I s) (hpos : pos < m.parseText.length)
    (hguard : (∀ s, I s → E .fault s) ∨ m.Guarded pos c)
    (hend : m.state = .inElementEndTag → c = ascii '>' → EndOk s) :
    Ends (m.handle context pos c) s (fun m' s' => I s' ∧ m.Next m') E := by
  cases hstate : m.state
  all_goals simp only [handle, hstate]
  case inUnknown => exact handleUnknown_ends h hm hstate hs
  case inUnknownMarkup => exact ends_pure ⟨hs, handleUnknownMarkup_next hm⟩
  case inUnknownMarkupGtE => exact handleUnknownMarkupGtE_ends h hm hstate hs
  case inProcessingInstructionTarget =>
    refine ends_pure ⟨hs, ?_⟩
    unfold handleInstructionTarget
    split
    · exact hm.next (by simp) rfl rfl
    · exact hm.next (by simp [hstate]) rfl rfl
  case inProcessingInstruction => exact handleInstruction_ends h hm hstate hs
  case inElementStartName => exact handleStartName_ends h hm hstate hs
  case inElementStartTag => exact handleStartTag_ends h hm hstate hs
  case inElementEndTag => exact handleEndTag_ends h hm hstate hs (hend hstate)
  case inComment =>
    exact handleSection_ends h .comment (by simp) _ hm (.inl hstate) hs hpos fun hc =>
      hguard.symm.imp_left fun hg => hg.comment hstate hc
  case inCdata =>
    exact handleSection_ends h .cData (by simp) _ hm (.inr hstate) hs hpos fun hc =>
      hguard.symm.imp_left fun hg => hg.cdata hstate hc
  case inDoctype => exact handleDoctype_ends h hm hstate hs
  case inElementDecl =>
    exact handleNamedDecl_ends _ hm (by simp [hstate]) hs fun _ _ =>
      h.other _ (by simp) (by simp) s hs
  case inAttlistDecl =>
    refine handleNamedDecl_ends _ hm (by simp [hstate]) hs fun hsub hc => ?_
    refine h.attributeDecl _ _ hs fun hopen => hguard.resolve_right fun hg => ?_
    exact hopen (hg.attlist hstate hsub hc)
  case inEntityDecl => exact handleEntity_ends h hm (by simp [hstate]) hs
  case inNotationDecl => exact handleNotation_ends h hm (by simp [hstate]) hs
  case inGeRef => exact handleGeRef_ends h hm hstate hs
  case inPeRef =>
    refine ends_ite (fun _ => ?_) fun _ => ?_
    · exact call_ends h hs _ (by simp) (by simp) (hm.next (by simp) rfl rfl)
    · exact ends_pure ⟨hs, hm.next (by simp [hstate]) rfl rfl⟩

end

/-! ### Buffers -/

/-- **What a byte observes**: it does not do what it must not, and where it is a `NUL` the character
before it is in the buffer. -/
structure ByteObserves (EndOk : σ → Prop) (m : XMLParserCore) (pos : ℕ) (c : Byte) (s : σ) :
    Prop where
  nul : c = 0 → m.characterSize ≤ pos
  guarded : m.Guarded pos c
  endTag : m.state = .inElementEndTag → c = ascii '>' → EndOk s

/-- Every byte of a buffer observes it, as far as the parser gets. -/
def LoopObserves (context : Context σ) (EndOk : σ → Prop) :
    XMLParserCore → ℕ → List Byte → σ → Prop
  | _, _, [], _ => True
  | m, pos, c :: rest, s => ByteObserves EndOk m pos c s ∧
    ∀ m' s', m.handleByte context pos c s = (.ok m', s') →
      LoopObserves context EndOk m' (pos + 1) rest s'

theorem LoopObserves.cons {EndOk : σ → Prop} {rest : List Byte} {s' : σ}
    (hbyte : ByteObserves EndOk m pos c s) (hrun : m.handleByte context pos c s = (.ok m', s'))
    (hrest : LoopObserves context EndOk m' (pos + 1) rest s') :
    LoopObserves context EndOk m pos (c :: rest) s := by
  refine ⟨hbyte, fun m'' s'' hrun' => ?_⟩
  obtain ⟨hm, rfl⟩ := Prod.mk.inj (hrun.symm.trans hrun')
  obtain ⟨⟩ := hm
  exact hrest

theorem loop_ends (h : Contract context I EndOk E) : ∀ (rest : List Byte) (m : XMLParserCore)
    (pos : ℕ) (s : σ), m.Valid → I s → pos + rest.length = m.parseText.length →
    ((∀ s, I s → E .fault s ∧ EndOk s) ∨ LoopObserves context EndOk m pos rest s) →
    Ends (loop context m pos rest) s (fun r s' => I s' ∧ m.Next r.1 ∧
      (r.2 = m.parseText.length ∨ r.2 ≤ m.parseText.length ∧
        ((∀ s, I s → E .fault s) ∨ r.1.characterSize ≤ r.2))) E := by
  intro rest
  induction rest with
  | nil =>
    intro m pos s hm hs hlength _
    exact ends_pure ⟨hs, ⟨hm, rfl⟩, .inl hlength⟩
  | cons c rest ih =>
    intro m pos s hm hs hlength hobserves
    rw [List.length_cons] at hlength
    refine ends_ite (fun hc => ?_) fun hc => ?_
    · refine ends_pure ⟨hs, ⟨hm, rfl⟩, .inr ⟨by dsimp only; omega, ?_⟩⟩
      exact hobserves.imp (fun hall s hs => (hall s hs).1) fun hobs => hobs.1.nul hc
    · have hbyte : Ends (m.handleByte context pos c) s (fun m' s' => I s' ∧ m.Next m') E := by
        have hvalid : Valid { m with characterSize := utf8CharLen c } := ⟨hm.long, hm.attributes⟩
        refine ends_ite (fun _ => ends_pure ⟨hs, hvalid, rfl⟩) fun _ => ?_
        refine (handle_ends h hvalid hs (by dsimp only; omega) ?_ ?_).mono
          (fun _ _ hn => ⟨hn.1, hn.2.valid, hn.2.length⟩) fun _ _ h => h
        · exact hobserves.imp (fun hall s hs => (hall s hs).1) fun hobs =>
            ⟨hobs.1.guarded.comment, hobs.1.guarded.cdata, hobs.1.guarded.attlist⟩
        · intro hstate hgt
          exact hobserves.elim (fun hall => (hall s hs).2) fun hobs => hobs.1.endTag hstate hgt
      obtain ⟨hok, herror⟩ := ends_iff.1 hbyte
      rcases hrun : m.handleByte context pos c s with ⟨why | m', s'⟩
      · unfold Ends
        rw [bind_error hrun]
        exact herror why s' hrun
      · obtain ⟨hs', hnext⟩ := hok m' s' hrun
        unfold Ends
        rw [bind_ok hrun]
        refine (ih m' (pos + 1) s' hnext.valid hs' (by rw [hnext.length]; omega)
          (hobserves.imp_right fun hobs => hobs.2 m' s' hrun)).mono (fun r _ hr => ?_) fun _ _ h => h
        rw [hnext.length] at hr
        exact ⟨hr.1, ⟨hr.2.1.valid, hr.2.1.length.trans hnext.length⟩, hr.2.2⟩

theorem bufferEnd_ends (h : Contract context I EndOk E) (hm : m.Valid) (hs : I s)
    (hlength : 3 < m.parseText.length)
    (hpos : pos = m.parseText.length ∨ pos ≤ m.parseText.length ∧
      ((∀ s, I s → E .fault s) ∨ m.characterSize ≤ pos)) :
    Ends (m.bufferEnd context pos) s (fun m' s' => I s' ∧ m'.Valid) E := by
  have hkeep : Ends (m.keepRemaining pos) s (fun m' s' => I s' ∧ m.Next m' ∧
      m'.longStringData = m.longStringData) E := by
    refine ends_ite (fun _ => ends_pure ⟨hs, ⟨⟨hm.long, hm.attributes⟩, rfl⟩, rfl⟩) fun hne => ?_
    obtain ⟨hle, hsize⟩ := hpos.resolve_left hne
    have hread : Ends (m.read ((pos : ℤ) - m.characterSize)) s (fun _ s' => I s') E := by
      refine ends_ite (fun _ => ends_pure hs) fun hout => ends_stop ?_
      refine hsize.elim (fun hfault => hfault s hs) fun hsize => absurd ?_ hout
      omega
    exact hread.bind fun _ _ hs => ends_pure ⟨hs, ⟨⟨hm.long, hm.attributes⟩, rfl⟩, rfl⟩
  refine hkeep.bind fun m₁ s ⟨hs, hnext, hlong⟩ => ?_
  cases hl : m₁.longStringData with
  | none => exact ends_pure ⟨hs, hnext.valid⟩
  | some long =>
    have hlength₁ : 3 < m₁.parseText.length := hnext.length ▸ hlength
    have hread : ∀ (i : ℤ) (s : σ), 0 ≤ i ∧ i ≤ m₁.parseText.length → I s →
        Ends (m₁.read i) s (fun _ s' => I s') E := fun i s hi hs =>
      ends_ite (fun _ => ends_pure hs) fun hout => absurd hi hout
    have hcarry : Ends m₁.carryOver s (fun m' s' => I s' ∧ m'.Valid) E := by
      refine ends_ite (fun _ => ?_) fun _ => ends_pure ⟨hs, hnext.valid⟩
      refine (hread _ s (by omega) hs).bind fun _ s hs => ?_
      refine (hread _ s (by omega) hs).bind fun _ s hs => ?_
      refine (hread _ s (by omega) hs).bind fun _ s hs => ?_
      have hwrite : Ends (m₁.write ((m₁.parseText.length : ℤ) - 3) 0) s
          (fun m' s' => I s' ∧ m'.Valid) E :=
        ends_ite (fun _ => ends_pure ⟨hs, hnext.valid.long, hnext.valid.attributes⟩)
          fun hout => absurd (by omega) hout
      exact hwrite.bind fun m' _ ⟨hs, hvalid⟩ =>
        ends_pure ⟨hs, hvalid.long, hvalid.attributes⟩
    refine hcarry.bind fun m' s ⟨hs, hvalid⟩ => ?_
    have hreport : Ends (context (sectionCallback m'.state (m'.longData long pos))) s
        (fun _ s' => I s') E := by
      refine h.other _ ?_ ?_ s hs
      · intro name attributes
        cases m'.state <;> simp [sectionCallback]
      · intro name
        cases m'.state <;> simp [sectionCallback]
    exact hreport.bind fun _ _ hs => ends_pure ⟨hs, hvalid⟩

/-- Every byte of a buffer observes it, if there are enough of them. -/
def BufferObserves (context : Context σ) (EndOk : σ → Prop) (m : XMLParserCore)
    (dataBuffer : List Byte) (s : σ) : Prop :=
  3 < dataBuffer.length + m.remainingChars.length →
    LoopObserves context EndOk (m.withBuffer dataBuffer) 0 (m.remainingChars ++ dataBuffer) s

theorem processInputBuffer_ends (h : Contract context I EndOk E) (hm : m.Valid) (hs : I s)
    (dataBuffer : List Byte)
    (hobserves : (∀ s, I s → E .fault s ∧ EndOk s) ∨ BufferObserves context EndOk m dataBuffer s) :
    Ends (m.processInputBuffer context dataBuffer) s (fun m' s' => I s' ∧ m'.Valid) E := by
  refine ends_ite (fun _ => ends_pure ⟨hs, hm.long, hm.attributes⟩) fun hlong => ?_
  have hvalid : (m.withBuffer dataBuffer).Valid := by
    refine ⟨fun hstate => ?_, hm.attributes⟩
    show (m.longStringData.map fun _ => 0).isSome = true
    rw [Option.isSome_map]
    exact hm.long hstate
  have hlength : (m.withBuffer dataBuffer).parseText.length =
      dataBuffer.length + m.remainingChars.length := by
    show (m.remainingChars ++ dataBuffer).length = _
    rw [List.length_append, Nat.add_comm]
  refine (loop_ends h (m.remainingChars ++ dataBuffer) (m.withBuffer dataBuffer) 0 s hvalid hs
    (Nat.zero_add _) (hobserves.imp_right fun hobs => hobs (by omega))).bind
      fun r s ⟨hs, hnext, hpos⟩ => ?_
  rw [← hnext.length] at hpos
  exact bufferEnd_ends h hnext.valid hs (by rw [hnext.length]; omega) hpos

end XMLParserCore

end

end OpenBinder.Xml
