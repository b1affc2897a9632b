import OpenBinder.Xml.Creator
import OpenBinder.Xml.ParserLaw

/-!
# A source that observes the parser's memory is parsed

* `SourceObserves`: no byte of a source does what it must not.
* `parseLoop_ends`: the loop over a source keeps what the callbacks keep.
* `creatorContext_contract`: the stack of creators is not empty, as long as no end tag is without
  its start tag.
* `parse_isSafe`: **a source that observes it is parsed with the memory that is there**.
-/

namespace OpenBinder.Xml

open Lib Fallible

open XMLParserCore

/-! ### Sources -/

section

variable {σ : Type} {context : Context σ}

/-- Every byte of a source observes it, as far as the parser gets. -/
def SourceObserves (context : Context σ) (EndOk : σ → Prop) : Source → XMLParserCore → σ → Prop
  | .buffer data rest, m, s => BufferObserves context EndOk m data s ∧
    ∀ m' s', m.processInputBuffer context data s = (.ok m', s') →
      SourceObserves context EndOk rest m' s'
  | .done data, m, s => BufferObserves context EndOk m data s
  | .failed _ _ _, _, _ => True

/-- **The loop over a source**: where it stops, it stops for a reason that is in order. -/
theorem parseLoop_ends {I EndOk : σ → Prop} {E : Stop → σ → Prop}
    (h : Contract context I EndOk E) :
    ∀ (source : Source) (m : XMLParserCore) (s : σ), m.Valid → I s →
      ((∀ s, I s → E .fault s ∧ EndOk s) ∨ SourceObserves context EndOk source m s) →
      match parseLoop context source m s with
      | (.ok (), _, s') => I s'
      | (.error why, _, s') => E why s' := by
  intro source
  induction source with
  | buffer data rest ih =>
    intro m s hm hs hobserves
    obtain ⟨hok, herror⟩ := ends_iff.1
      (processInputBuffer_ends h hm hs data (hobserves.imp_right fun hobs => hobs.1))
    unfold parseLoop
    rcases hrun : m.processInputBuffer context data s with ⟨why | m', s'⟩
    · exact herror why s' hrun
    · obtain ⟨hs', hm'⟩ := hok m' s' hrun
      exact ih m' s' hm' hs' (hobserves.imp_right fun hobs => hobs.2 m' s' hrun)
  | done data =>
    intro m s hm hs hobserves
    obtain ⟨hok, herror⟩ := ends_iff.1 (processInputBuffer_ends h hm hs data hobserves)
    unfold parseLoop
    rcases hrun : m.processInputBuffer context data s with ⟨why | m', s'⟩
    · exact herror why s' hrun
    · exact (hok m' s' hrun).1
  | failed err nonzero done =>
    intro m s _ hs _
    exact h.error err s hs

end

/-! ### Creators -/

section

variable {κ ω : Type} (creators : Creators κ ω)

/-- The stack is not empty. -/
def Stacked (s : CreatorState κ ω) : Prop := 1 ≤ s.creators.length

/-- There is a creator around the innermost one, which an end tag goes back to. -/
def Enclosed (s : CreatorState κ ω) : Prop := 2 ≤ s.creators.length

/-- A reason that is not a memory fault. -/
def Reported (why : Stop) (_ : CreatorState κ ω) : Prop := why ≠ .fault

namespace CreatorState

variable {n : ℕ} {s : CreatorState κ ω}

theorem top_ends (h : n + 1 ≤ s.creators.length) :
    Ends top s (fun _ s' => n + 1 ≤ s'.creators.length) Reported := by
  obtain ⟨k, rest, hs⟩ := List.exists_cons_of_length_pos (Nat.lt_of_lt_of_le n.succ_pos h)
  unfold Ends top
  rw [hs]
  exact h

theorem pop_ends (h : n + 1 ≤ s.creators.length) :
    Ends pop s (fun _ s' => n ≤ s'.creators.length) Reported := by
  obtain ⟨k, rest, hs⟩ := List.exists_cons_of_length_pos (Nat.lt_of_lt_of_le n.succ_pos h)
  unfold Ends pop
  rw [hs]
  rw [hs, List.length_cons] at h
  exact Nat.le_of_succ_le_succ h

theorem call_ends (f : ω → ℤ × ω) (h : n ≤ s.creators.length) :
    Ends (call f) s (fun _ s' => n ≤ s'.creators.length) Reported := by
  unfold Ends call
  by_cases herr : (f s.made).1 = 0
  · simpa only [herr, if_true] using h
  · simp only [herr, if_false]
    exact nofun

theorem callUnchecked_ends (f : ω → ℤ × ω) (h : n ≤ s.creators.length) :
    Ends (callUnchecked f) s (fun _ s' => n ≤ s'.creators.length) Reported := h

theorem callStart_ends (f : ω → ℤ × Option κ × ω) (h : n ≤ s.creators.length) :
    Ends (callStart f) s (fun _ s' => n ≤ s'.creators.length) Reported := by
  unfold Ends callStart
  by_cases herr : (f s.made).1 = 0
  · simpa only [herr, if_true] using h
  · simp only [herr, if_false]
    exact nofun

/-- **The rule of `do_text`**: the text is forgotten, whatever the creator says. -/
theorem ends_doText {Q : CreatorState κ ω → Prop} {E : Stop → CreatorState κ ω → Prop} (k : κ)
    (hnone : Q s) (hpadding : E (.error (-1)) { s with textData := [] })
    (hcall : ∀ f ∈ [creators.onText k s.textData, creators.onComment k s.textData],
      Ends (call f) s (fun _ s' => Q { s' with textData := [] })
        fun why s' => E why { s' with textData := [] }) :
    Ends (doText creators k) s (fun _ => Q) E := by
  have hforget : ∀ x : Parse (CreatorState κ ω) Unit,
      Ends x s (fun _ s' => Q { s' with textData := [] })
        (fun why s' => E why { s' with textData := [] }) →
      Ends (fun s => ((x s).1, { (x s).2 with textData := [] })) s (fun _ => Q) E := by
    intro x hx
    unfold Ends at hx ⊢
    dsimp only
    rcases hrun : x s with ⟨why | a, s'⟩
    · rw [hrun] at hx
      exact hx
    · rw [hrun] at hx
      exact hx
  by_cases htext : s.textData = []
  · unfold Ends doText
    rw [if_pos htext]
    exact hnone
  · unfold Ends doText
    rw [if_neg htext]
    cases s.textType
    case text => exact hforget _ (hcall _ List.mem_cons_self)
    case comment => exact hforget _ (hcall _ (List.mem_cons_of_mem _ List.mem_cons_self))
    case blahPadding => exact hpadding

theorem doText_ends (k : κ) (h : n ≤ s.creators.length) :
    Ends (doText creators k) s (fun _ s' => n ≤ s'.creators.length) Reported :=
  ends_doText creators k h nofun fun f _ => call_ends f h

theorem onStartTag_ends (name : List Byte) (attributes : SValue) (h : Stacked s) :
    Ends (onStartTag creators name attributes) s (fun _ s' => Stacked s' ∧ Enclosed s')
      Reported := by
  refine (top_ends h).bind fun k s h => ?_
  refine (doText_ends creators k h).bind fun _ s h => ?_
  refine (callStart_ends _ h).bind fun newCreator s h => ?_
  exact ⟨Nat.le_add_left 1 _, Nat.succ_le_succ h⟩

theorem onEndTag_ends (name : List Byte) (h : Enclosed s) :
    Ends (onEndTag creators name) s (fun _ s' => Stacked s') Reported := by
  refine (top_ends h).bind fun k s h => ?_
  refine (doText_ends creators k h).bind fun _ s h => ?_
  refine (callUnchecked_ends (creators.done k) h).bind fun _ s h => ?_
  refine (pop_ends h).bind fun _ s h => ?_
  exact (top_ends h).bind fun k s h => call_ends (creators.onEndTag k name) h

theorem ends_onData {Q : CreatorState κ ω → Prop} {E : Stop → CreatorState κ ω → Prop}
    (type : TextType) (data : List Byte) (hnone : Q s)
    (hflush : Ends (top >>= doText creators) s (fun _ => Q) E)
    (happend : ∀ s text, Q s → Q { s with textData := text, textType := type }) :
    Ends (onData creators type data) s (fun _ => Q) E := by
  have hends : Ends (if s.textType ≠ type then top >>= doText creators else pure ()) s
      (fun _ => Q) E := ends_ite (fun _ => hflush) fun _ => ends_pure hnone
  obtain ⟨hok, herror⟩ := ends_iff.1 hends
  unfold Ends onData
  dsimp only
  rcases hrun : (if s.textType ≠ type then top >>= doText creators else pure () :
    Parse (CreatorState κ ω) Unit) s with ⟨why | a, s'⟩
  · exact herror why s' hrun
  · exact happend s' _ (hok a s' hrun)

theorem onData_ends (type : TextType) (data : List Byte) (h : Stacked s) :
    Ends (onData creators type data) s (fun _ s' => Stacked s') Reported :=
  ends_onData creators type data h
    ((top_ends h).bind fun k _ h => doText_ends creators k h) fun _ _ h => h

end CreatorState

/-- **A tree of creators is a context** that keeps a creator on the stack. -/
theorem creatorContext_contract :
    Contract (creatorContext creators) Stacked Enclosed Reported where
  startTag := fun name attributes _ h =>
    CreatorState.onStartTag_ends creators name attributes h
  endTag := fun name _ _ h => CreatorState.onEndTag_ends creators name h
  other := by
    intro callback hstart hend s h
    cases callback
    case startTag name attributes => exact absurd rfl (hstart name attributes)
    case endTag name => exact absurd rfl (hend name)
    case textData data => exact CreatorState.onData_ends creators .text data h
    case cData data => exact CreatorState.onData_ends creators .text data h
    case comment data => exact CreatorState.onData_ends creators .comment data h
    case processingInstruction target data =>
      exact (CreatorState.top_ends h).bind fun k _ h => CreatorState.call_ends _ h
    all_goals exact h
  error := fun _ _ _ => nofun

end

theorem contract_of_callbacks {σ : Type} {context : Context σ}
    (hcontext : ∀ callback s, (context callback s).1 ≠ .error .fault) :
    Contract context (fun _ => True) (fun _ => True) fun why _ => why ≠ .fault := by
  have hcall : ∀ callback s, Ends (context callback) s (fun _ _ => True) fun why _ =>
      why ≠ .fault := fun callback s =>
    ends_iff.2 ⟨fun _ _ _ => trivial, fun why s' hrun hwhy =>
      hcontext callback s (by rw [hrun, hwhy])⟩
  exact {
    startTag := fun name attributes s _ =>
      (hcall _ s).mono (fun _ _ _ => ⟨trivial, trivial⟩) fun _ _ h => h
    endTag := fun name s _ _ => hcall _ s
    other := fun callback _ _ s _ => hcall callback s
    error := fun _ _ _ => nofun }

/-- **A source that observes it is parsed with the memory that is there**: by a parser with any
context, whose callbacks use only memory that is there, and by `ParseXML`. -/
theorem parse_isSafe {σ κ ω : Type} (context : Context σ) (creators : Creators κ ω) (creator : κ)
    (source : Source) (dtdOnly : Bool) (flags : BitVec 32) (s : σ) (made : ω) :
    ((∀ callback s, (context callback s).1 ≠ .error .fault) →
      SourceObserves context (fun _ => True) source (.init dtdOnly flags) s →
      (parseLoop context source (.init dtdOnly flags) s).1 ≠ .error .fault) ∧
    (SourceObserves (creatorContext creators) Enclosed source (.init false (realFlags flags))
        ⟨[creator], [], .blahPadding, made⟩ →
      (parseXML creators creator source flags made).isSome = true) := by
  constructor
  · intro hcontext hobserves
    have hends := parseLoop_ends (contract_of_callbacks hcontext) source _ s
      (Valid.init dtdOnly flags) trivial (.inr hobserves)
    rcases hrun : parseLoop context source (.init dtdOnly flags) s with ⟨why | _, done, s'⟩
    · rw [hrun] at hends
      exact fun hwhy => hends (Except.error.inj hwhy)
    · exact nofun
  · intro hobserves
    have hends := parseLoop_ends (creatorContext_contract creators) source _
      ⟨[creator], [], .blahPadding, made⟩ (Valid.init false (realFlags flags)) (Nat.le_refl 1)
      (.inr hobserves)
    unfold parseXML parsed
    rcases hrun : parseLoop (creatorContext creators) source (.init false (realFlags flags))
      ⟨[creator], [], .blahPadding, made⟩ with ⟨why | _, done, s'⟩
    · rw [hrun] at hends
      cases why with
      | error err => rfl
      | fault => exact absurd rfl hends
    · rfl

/-- A byte outside of comments, sections and attribute lists, that is not the end of an end tag. -/
theorem byteObserves_of_state {σ : Type} {EndOk : σ → Prop} {m : XMLParserCore} {pos : ℕ} {c : Byte}
    {s : σ} (hc : c ≠ 0) (hstate : m.state ∉ [.inComment, .inCdata, .inAttlistDecl])
    (hend : m.state = .inElementEndTag → c ≠ ascii '>') : ByteObserves EndOk m pos c s where
  nul := fun h => absurd h hc
  guarded := {
    comment := fun h => absurd (by simp [h]) hstate
    cdata := fun h => absurd (by simp [h]) hstate
    attlist := fun h => absurd (by simp [h]) hstate }
  endTag := fun h hgt => absurd hgt (hend h)

/-- Creators that accept everything. -/
def Creators.accepting : Creators Unit Unit where
  onStartTag _ _ _ _ := (0, none, ())
  onEndTag _ _ _ := (0, ())
  onText _ _ _ := (0, ())
  onComment _ _ _ := (0, ())
  onProcessingInstruction _ _ _ _ := (0, ())
  done _ _ := (0, ())

theorem parse_isSafe_emptyElement :
    (parseLoop (fun _ => pure () : Context Unit) (.done (literal ['t', 'e', 'x', 't']))
      (.init false 0#32) ()).1 ≠ .error .fault ∧
    (parseXML .accepting () (.done (literal ['<', 'a', '/', '>'])) 0#32 ()).isSome = true :=
  ⟨(parse_isSafe _ .accepting () _ false 0#32 () ()).1 nofun fun _ =>
    .cons (byteObserves_of_state (by decide) (by decide) (by decide)) rfl
      (.cons (byteObserves_of_state (by decide) (by decide) (by decide)) rfl
        (.cons (byteObserves_of_state (by decide) (by decide) (by decide)) rfl
          (.cons (byteObserves_of_state (by decide) (by decide) (by decide)) rfl trivial))),
  (parse_isSafe (fun _ => pure () : Context Unit) .accepting () _ false 0#32 () ()).2 fun _ =>
    .cons (byteObserves_of_state (by decide) (by decide) (by decide)) rfl
      (.cons (byteObserves_of_state (by decide) (by decide) (by decide)) rfl
        (.cons (byteObserves_of_state (by decide) (by decide) (by decide)) rfl
          (.cons (byteObserves_of_state (by decide) (by decide) (by decide)) rfl trivial)))⟩

/-- The end tag `</a>` takes the only creator off the stack, which has no top then. -/
theorem parse_not_safe_endTag : ¬ ∀ (κ ω : Type) (creators : Creators κ ω) (creator : κ)
    (source : Source) (flags : BitVec 32) (made : ω),
    (parseXML creators creator source flags made).isSome = true := fun h =>
  absurd (h Unit Unit .accepting () (.done (literal ['<', '/', 'a', '>'])) 0#32 ()) (by decide)

end OpenBinder.Xml
