import OpenBinder.Pipe.Pipe

/-!
# A pipe is a FIFO channel

* `Kept`: the ring is in order (`Ring`), what the writer is told goes with what was accepted
  (`Writes`), the reader's call goes with its result (`Reads`), and a reader that waits is going to be
  woken (`Woken`).
* One lemma for each way that the loops of `WriteV` and `ReadV` go on, then one for each step.
* `fifo_of_observes`: in a run whose steps do not go wrong, the pipe is a FIFO channel in every state.
-/

namespace OpenBinder.BPipe

open Lib List

/-! ### The invariant -/

/-- The places in `PrvWrite` after it has seen that the write end is not closed. -/
def WriterPc.isWrite : WriterPc → Bool
  | .testSpace | .wait | .close | .copy | .add _ | .openData _ => true
  | _ => false

/-- The places in `PrvWriteEOS`. -/
def WriterPc.isEnd : WriterPc → Bool
  | .testEnd | .setEnd | .testEmpty | .openEnd => true
  | _ => false

/-- The places in `PrvRead` where there is data. -/
def ReaderPc.isRead : ReaderPc → Bool
  | .copy | .add _ | .openSpace _ => true
  | _ => false

/-- What a writer has copied and not handed over. -/
def putting : Writer → List Byte
  | .running call (.add size) => call.rest.take size
  | _ => []

/-- What a reader has copied and not given back the space of. -/
def taking : Reader → List Byte
  | .running _ (.add bytes) => bytes
  | _ => []

/-- What a writer has still to hand over. -/
def pending : Writer → List Byte
  | .idle => []
  | .running call (.openData size) => call.rest.drop size ++ flat call.vectors
  | .running call _ => call.rest ++ flat call.vectors

/-- **What the writer is told** goes with what was accepted. -/
structure Writes (told given accepted : List Byte) (halfClosed : Bool) (writer : Writer) : Prop where
  honest : told <+: accepted
  book : told ++ given = accepted ++ pending writer
  idle : writer = .idle → given = []
  call : ∀ call pc, writer = .running call pc →
    call.total + (flat call.vectors).length = given.length ∧ given.length < 2 ^ 31
  notClosed : ∀ call pc, writer = .running call pc → pc.isWrite = true → halfClosed = false
  atEnd : ∀ call pc, writer = .running call pc → pc.isEnd = true → call.rest = [] ∧ call.vectors = []
  size : ∀ call size, writer = .running call (.add size) → size ≤ call.rest.length

/-- **The reader's call** goes with its result. -/
structure Reads (size space : ℕ) (halfClosed : Bool) (lastRead : Option (Bool × ℤ)) (reader : Reader) :
    Prop where
  ended : ∀ result, lastRead = some (true, result) → result = 0
  size_pos : ∀ call pc, reader = .running call pc → 0 < call.size
  wait : ∀ call, reader = .running call .wait → call.total = 0
  drained : ∀ call pc, reader = .running call pc → call.drained = true →
    halfClosed = true ∧ space = size ∧ call.total = 0 ∧ pc.isRead = false

/-- **A reader that waits is going to be woken**: the pipe is empty and not at its end, or the writer
is going to open the gate. -/
structure Woken (size space : ℕ) (halfClosed dataOpen : Bool) (writer : Writer) (reader : Reader) :
    Prop where
  quiet : ∀ total, WaitsWith reader total → dataOpen = false → ¬ WakesReader writer →
    space = size ∧ halfClosed = false
  testing : ∀ total, WaitsWith reader total → dataOpen = false →
    ∀ call, writer = .running call .testEmpty → space = size

/-- **The invariant.** -/
structure Kept (s : BPipe) : Prop where
  size_pos : 0 < s.size
  ring : Ring s.size s.slots s.readOffset s.writeOffset s.spaceAvailable s.accepted s.received
    (putting s.writer) (taking s.reader)
  writes : Writes s.told s.given s.accepted s.halfClosed s.writer
  reads : Reads s.size s.spaceAvailable s.halfClosed s.lastRead s.reader
  woken : Woken s.size s.spaceAvailable s.halfClosed s.dataOpen s.writer s.reader

variable {size space : ℕ} {halfClosed : Bool} {reader : Reader} {w : Writer} {s s' : BPipe}

theorem Woken.of_open {writer : Writer} :
    Woken size space halfClosed true writer reader :=
  ⟨fun _ _ h => absurd h (by decide), fun _ _ h => absurd h (by decide)⟩

theorem Woken.of_busy {dataOpen : Bool} {writer : Writer} (h : ∀ total, ¬ WaitsWith reader total) :
    Woken size space halfClosed dataOpen writer reader :=
  ⟨fun total hw => absurd hw (h total), fun total hw => absurd hw (h total)⟩

/-- The writer moves on, and is not at a test of whether the pipe is empty. -/
theorem Woken.writer {dataOpen : Bool} {w' : Writer}
    (h : Woken size space halfClosed dataOpen w reader) (hw : ¬ WakesReader w)
    (hw' : ∀ call, w' ≠ .running call .testEmpty) :
    Woken size space halfClosed dataOpen w' reader :=
  ⟨fun total ht ho _ => h.quiet total ht ho hw, fun _ _ _ call hc => absurd hc (hw' call)⟩

theorem Reads.space_of_open {space' : ℕ} {lastRead : Option (Bool × ℤ)}
    (h : Reads size space false lastRead reader) : Reads size space' false lastRead reader :=
  ⟨h.ended, h.size_pos, h.wait, fun call pc hr hd => absurd (h.drained call pc hr hd).1 (by decide)⟩

theorem Kept.fifo (h : s.Kept) : s.Fifo where
  read := h.ring.received_prefix
  accepted := ⟨_, h.writes.book.symm⟩
  told := h.writes.honest
  idle := by
    intro hw
    have hbook := h.writes.book
    rw [h.writes.idle hw, hw, append_nil] at hbook
    rw [hbook]
    exact append_nil _
  empty_handed := by
    rintro total ⟨call, hr, rfl⟩
    exact h.reads.wait call hr
  woken := by
    intro total hw hclosed hor
    by_contra hn
    obtain ⟨h1, h2⟩ := h.woken.quiet total hw hclosed hn
    rcases hor with hne | he
    · exact hne h1
    · rw [h2] at he
      exact absurd he (by decide)
  ended := h.reads.ended

/-! ### How the calls go on -/

theorem nextVector_some : ∀ (vectors : List Vec) (total : ℕ) {total' : ℕ} {rest : List Byte}
    {vectors' : List Vec}, nextVector vectors total = (total', some (rest, vectors')) →
    flat vectors = rest ++ flat vectors' ∧ total' = total + rest.length := by
  intro vectors
  induction vectors with
  | nil =>
    intro total total' rest vectors' h
    cases h
  | cons v vectors ih =>
    intro total total' rest vectors' h
    rw [nextVector] at h
    split at h
    · rename_i hv
      obtain ⟨h1, h2⟩ := ih total h
      refine ⟨?_, h2⟩
      unfold flat at h1 ⊢
      rw [flatMap_cons, hv, nil_append, h1]
    · obtain ⟨rfl, h2⟩ := Prod.mk.inj h
      obtain ⟨⟩ := h2
      exact ⟨flatMap_cons, rfl⟩

theorem nextVector_none : ∀ (vectors : List Vec) (total : ℕ) {total' : ℕ},
    nextVector vectors total = (total', none) → flat vectors = [] ∧ total' = total := by
  intro vectors
  induction vectors with
  | nil =>
    intro total total' h
    exact ⟨rfl, (Prod.mk.inj h).1.symm⟩
  | cons v vectors ih =>
    intro total total' h
    rw [nextVector] at h
    split at h
    · rename_i hv
      obtain ⟨h1, h2⟩ := ih total h
      refine ⟨?_, h2⟩
      unfold flat at h1 ⊢
      rw [flatMap_cons, hv, nil_append, h1]
    · exact absurd (Prod.mk.inj h).2 (by simp)

/-- A writer between two `PrvWrite`. -/
def Between : Writer → Prop
  | .idle => True
  | .running _ .testClosed => True
  | .running _ .testEnd => True
  | _ => False

theorem Between.putting (h : Between w) : putting w = [] := by
  unfold Between at h
  split at h <;> first | rfl | exact h.elim

theorem Between.not_testEmpty (h : Between w) (call : WriteCall) :
    w ≠ .running call .testEmpty := by
  rintro rfl
  exact h

theorem returnWrite_spec (s : BPipe) {total : ℕ} (hbook : s.told ++ s.given = s.accepted) (htotal : total = s.given.length)
    (hlt : s.given.length < 2 ^ 31) :
    ∃ w told given, s.returnWrite total = { s with writer := w, told := told, given := given } ∧
      Between w ∧ Writes told given s.accepted s.halfClosed w := by
  refine ⟨.idle, s.accepted, [], ?_, trivial, ?_⟩
  · have hssize : (ssize (total : ℤ)).toNat = s.given.length := by
      rw [ssize_of_lt (by omega) (by omega)]
      omega
    unfold returnWrite
    rw [hssize, take_length, hbook]
  · refine ⟨prefix_refl _, rfl, fun _ => rfl, ?_, ?_, ?_, ?_⟩
    · intro _ _ hw; cases hw
    · intro _ _ hw; cases hw
    · intro _ _ hw; cases hw
    · intro _ _ hw; cases hw

theorem writeOn_spec (s : BPipe) (call : WriteCall) (htold : s.told <+: s.accepted)
    (hbook : s.told ++ s.given = s.accepted ++ (call.rest ++ flat call.vectors))
    (htotal : call.total + (flat call.vectors).length = s.given.length)
    (hlt : s.given.length < 2 ^ 31) :
    ∃ w told given, s.writeOn call = { s with writer := w, told := told, given := given } ∧
      Between w ∧ Writes told given s.accepted s.halfClosed w := by
  unfold writeOn
  by_cases hrest : call.rest ≠ []
  · rw [if_pos hrest]
    refine ⟨_, s.told, s.given, rfl, trivial, htold, hbook, ?_, ?_, ?_, ?_, ?_⟩
    · intro hw; cases hw
    · rintro _ _ ⟨⟩
      exact ⟨htotal, hlt⟩
    · rintro _ _ ⟨⟩ hp
      exact absurd hp (by decide)
    · rintro _ _ ⟨⟩ hp
      exact absurd hp (by decide)
    · intro _ _ hw; cases hw
  · rw [if_neg hrest]
    rw [not_not] at hrest
    rw [hrest, nil_append] at hbook
    rcases hn : nextVector call.vectors call.total with ⟨total, _ | ⟨rest, vectors⟩⟩
    · -- all vectors are written
      obtain ⟨hflat, rfl⟩ := nextVector_none _ _ hn
      rw [hflat, append_nil] at hbook
      rw [hflat, length_nil, Nat.add_zero] at htotal
      dsimp only
      split
      · refine ⟨_, s.told, s.given, rfl, trivial, htold, ?_, ?_, ?_, ?_, ?_, ?_⟩
        · show _ = s.accepted ++ (call.rest ++ flat [])
          rw [hrest, hbook]
          exact (append_nil _).symm
        · intro hw; cases hw
        · rintro _ _ ⟨⟩
          exact ⟨htotal, hlt⟩
        · rintro _ _ ⟨⟩ hp
          exact absurd hp (by decide)
        · rintro _ _ ⟨⟩ _
          exact ⟨hrest, rfl⟩
        · intro _ _ hw; cases hw
      · exact returnWrite_spec s hbook htotal hlt
    · obtain ⟨hflat, rfl⟩ := nextVector_some _ _ hn
      refine ⟨_, s.told, s.given, rfl, trivial, htold, ?_, ?_, ?_, ?_, ?_, ?_⟩
      · show _ = s.accepted ++ (rest ++ flat vectors)
        rw [hbook, hflat]
      · intro hw; cases hw
      · rintro _ _ ⟨⟩
        refine ⟨?_, hlt⟩
        rw [hflat, length_append] at htotal
        dsimp only
        omega
      · rintro _ _ ⟨⟩ hp
        exact absurd hp (by decide)
      · rintro _ _ ⟨⟩ hp
        exact absurd hp (by decide)
      · intro _ _ hw; cases hw

theorem readOn_spec (s : BPipe) (blocking drained : Bool)
    (hended : ∀ result, s.lastRead = some (true, result) → result = 0) : ∀ (sizes : List ℕ) (total : ℕ),
    (drained = true → s.halfClosed = true ∧ s.spaceAvailable = s.size ∧ total = 0) →
    ∃ r last, s.readOn blocking drained total sizes = { s with reader := r, lastRead := last } ∧
      taking r = [] ∧ (∀ n, ¬ WaitsWith r n) ∧
      Reads s.size s.spaceAvailable s.halfClosed last r := by
  intro sizes
  induction sizes with
  | nil =>
    intro total hd
    refine ⟨.idle, some (drained, total), rfl, rfl, ?_, ?_, ?_, ?_, ?_⟩
    · rintro n ⟨_, hr, -⟩; cases hr
    · rintro result hr
      obtain ⟨⟩ := hr
      exact_mod_cast (hd rfl).2.2
    · intro _ _ hr; cases hr
    · intro _ hr; cases hr
    · intro _ _ hr; cases hr
  | cons size sizes ih =>
    intro total hd
    rw [readOn]
    split
    · exact ih total hd
    · rename_i hsize
      refine ⟨_, s.lastRead, rfl, rfl, ?_, hended, ?_, ?_, ?_⟩
      · rintro n ⟨_, hr, -⟩; cases hr
      · rintro _ _ ⟨⟩
        exact Nat.pos_of_ne_zero hsize
      · rintro _ ⟨⟩
      · rintro _ _ ⟨⟩ hdr
        obtain ⟨h1, h2, h3⟩ := hd hdr
        exact ⟨h1, h2, h3, rfl⟩

theorem didRead_spec (s : BPipe) (call : ReadCall) (size : ℕ)
    (hended : ∀ result, s.lastRead = some (true, result) → result = 0)
    (hd : call.drained = true →
      s.halfClosed = true ∧ s.spaceAvailable = s.size ∧ call.total + size = 0) :
    ∃ r last, s.didRead call size = { s with reader := r, lastRead := last } ∧
      taking r = [] ∧ (∀ n, ¬ WaitsWith r n) ∧
      Reads s.size s.spaceAvailable s.halfClosed last r := by
  unfold didRead
  split
  · refine ⟨.idle, some (call.drained, (call.total + size : ℕ)), rfl, rfl, ?_, ?_, ?_, ?_, ?_⟩
    · rintro n ⟨_, hr, -⟩; cases hr
    · rintro result hr
      obtain ⟨hdr, rfl⟩ := Prod.mk.inj (Option.some.inj hr)
      exact_mod_cast (hd hdr).2.2
    · intro _ _ hr; cases hr
    · intro _ hr; cases hr
    · intro _ _ hr; cases hr
  · exact readOn_spec s call.blocking call.drained hended call.sizes (call.total + size) hd

/-! ### Steps -/

/-- The writer comes to another place in `PrvWrite`, with all else that it goes by the same. -/
theorem Writes.move {told given accepted : List Byte} {call : WriteCall} {pc pc' : WriterPc}
    (h : Writes told given accepted halfClosed (.running call pc))
    (hpending : pending (.running call pc') = pending (.running call pc))
    (hwrite : pc'.isWrite = true → halfClosed = false)
    (hend : pc'.isEnd = true → call.rest = [] ∧ call.vectors = [])
    (hsize : ∀ size, pc' = .add size → size ≤ call.rest.length) :
    Writes told given accepted halfClosed (.running call pc') := by
  refine ⟨h.honest, by rw [hpending]; exact h.book, ?_, ?_, ?_, ?_, ?_⟩
  · intro hw; cases hw
  · rintro _ _ ⟨⟩
    exact h.call call pc rfl
  · rintro _ _ ⟨⟩
    exact hwrite
  · rintro _ _ ⟨⟩
    exact hend
  · rintro _ size ⟨⟩
    exact hsize size rfl

/-- **A step of the writer.** -/
theorem Kept.writerStep {call : WriteCall} {pc : WriterPc} (h : s.Kept)
    (hw : s.writer = .running call pc) (ho : s.Observes .writer) (hs : s.writerStep call pc = some s') :
    s'.Kept := by
  obtain ⟨hpos, hring, hwrites, hreads, hwoken⟩ := h
  unfold Observes at ho
  rw [hw] at hring hwrites hwoken ho
  obtain ⟨htotal, hlt⟩ := hwrites.call call pc rfl
  have hbook := hwrites.book
  -- what is returned when the vectors are all written
  have hreturn : pc.isEnd = true → pending (.running call pc) = call.rest ++ flat call.vectors →
      ∀ s₁ : BPipe, s₁.told = s.told → s₁.given = s.given → s₁.accepted = s.accepted →
      ∃ w told given, s₁.returnWrite call.total = { s₁ with writer := w, told := told, given := given } ∧
        Between w ∧ Writes told given s₁.accepted s₁.halfClosed w := by
    intro hend hpending s₁ h1 h2 h3
    obtain ⟨hr, hv⟩ := hwrites.atEnd call pc rfl hend
    rw [hpending, hr, hv] at hbook
    rw [hv] at htotal
    refine returnWrite_spec s₁ ?_ ?_ ?_
    · rw [h1, h2, h3, hbook]
      exact append_nil _
    · rw [h2]
      exact htotal
    · rw [h2]
      exact hlt
  -- another place in the same call, where nothing else has changed
  have hmove : ∀ (pc' : WriterPc) (spaceOpen : Bool),
      putting (.running call pc') = putting (.running call pc) →
      pending (.running call pc') = pending (.running call pc) →
      (pc'.isWrite = true → s.halfClosed = false) →
      (pc'.isEnd = true → call.rest = [] ∧ call.vectors = []) →
      (∀ size, pc' ≠ .add size) → ¬ WakesReader (.running call pc) → pc' ≠ .testEmpty →
      Kept { s with spaceOpen := spaceOpen, writer := .running call pc' } := by
    intro pc' spaceOpen hput hpend hwrite hend hadd hquiet htest
    refine ⟨hpos, ?_, hwrites.move hpend hwrite hend (fun size hc => absurd hc (hadd size)), hreads,
      hwoken.writer hquiet ?_⟩
    · rw [← hput] at hring
      exact hring
    · rintro _ ⟨⟩
      exact htest rfl
  have hopen : pc.isWrite = true → s.halfClosed = false := hwrites.notClosed call pc rfl
  cases pc with
  | testClosed =>
    rw [BPipe.writerStep] at hs
    rw [if_neg (by rw [ho]; decide)] at hs
    obtain ⟨⟩ := hs
    exact hmove .testSpace s.spaceOpen rfl rfl (fun _ => ho) nofun (fun _ => nofun) (fun hc => hc)
      nofun
  | testSpace =>
    rw [BPipe.writerStep] at hs
    split at hs
    · rename_i hfull
      -- a full pipe is waited for
      have hblock : call.blocking = true := by
        by_contra hb
        exact ho (by simpa using hb) hfull
      rw [if_pos hblock] at hs
      obtain ⟨⟩ := hs
      exact hmove .wait s.spaceOpen rfl rfl (fun _ => hopen rfl) nofun (fun _ => nofun)
        (fun hc => hc) nofun
    · obtain ⟨⟩ := hs
      exact hmove .close s.spaceOpen rfl rfl (fun _ => hopen rfl) nofun (fun _ => nofun)
        (fun hc => hc) nofun
  | wait =>
    rw [BPipe.writerStep] at hs
    split at hs
    · obtain ⟨⟩ := hs
      exact hmove .testSpace s.spaceOpen rfl rfl (fun _ => hopen rfl) nofun (fun _ => nofun)
        (fun hc => hc) nofun
    · cases hs
  | close =>
    rw [BPipe.writerStep] at hs
    obtain ⟨⟩ := hs
    exact hmove .copy false rfl rfl (fun _ => hopen rfl) nofun (fun _ => nofun) (fun hc => hc)
      nofun
  | copy =>
    rw [BPipe.writerStep] at hs
    obtain ⟨⟩ := hs
    have hlen : (call.rest.take (min call.rest.length s.spaceAvailable)).length =
        min call.rest.length s.spaceAvailable := by
      rw [length_take]
      omega
    have hroom : (call.rest.take (min call.rest.length s.spaceAvailable)).length ≤ s.spaceAvailable := by
      rw [hlen]
      omega
    have hplace := hring.place hroom
    rw [hlen] at hplace
    refine ⟨hpos, hplace, hwrites.move rfl (fun _ => hopen rfl) nofun ?_,
      hreads, hwoken.writer (fun hc => hc) (by rintro _ ⟨⟩)⟩
    rintro _ ⟨⟩
    omega
  | add size =>
    rw [BPipe.writerStep] at hs
    have hnot := hopen rfl
    have hsize := hwrites.size call size rfl
    have htake : (call.rest.take size).length = size := by
      rw [length_take]
      omega
    have hcommit := hring.commit
    rw [show putting (.running call (.add size)) = call.rest.take size from rfl, htake] at hcommit
    have hreads' : ∀ space, Reads s.size space s.halfClosed s.lastRead s.reader := by
      intro space
      rw [hnot] at hreads ⊢
      exact hreads.space_of_open
    have hbook' : s.told ++ s.given =
        s.accepted ++ call.rest.take size ++ (call.rest.drop size ++ flat call.vectors) := by
      rw [hbook, append_assoc, ← append_assoc (call.rest.take size), take_append_drop]
      rfl
    have htold : s.told <+: s.accepted ++ call.rest.take size :=
      hwrites.honest.trans (prefix_append _ _)
    split at hs
    · obtain ⟨⟩ := hs
      refine ⟨hpos, hcommit, ⟨htold, hbook', ?_, ?_, ?_, ?_, ?_⟩, hreads' _, ?_, ?_⟩
      · intro hw; cases hw
      · rintro _ _ ⟨⟩
        exact ⟨htotal, hlt⟩
      · rintro _ _ ⟨⟩ _
        exact hnot
      · rintro _ _ ⟨⟩ ⟨⟩
      · intro _ _ hw; cases hw
      · exact fun _ _ _ hc => absurd trivial hc
      · rintro _ _ _ _ ⟨⟩
    · rename_i hne
      obtain ⟨⟩ := hs
      obtain ⟨w, told, given, he, hb, hwr⟩ := writeOn_spec { s with
        spaceAvailable := s.spaceAvailable - size
        accepted := s.accepted ++ call.rest.take size } { call with rest := call.rest.drop size }
        htold hbook' htotal hlt
      unfold wrote
      rw [he]
      refine ⟨hpos, ?_, hwr, hreads' _, ?_, ?_⟩
      · rw [hb.putting]
        exact hcommit
      · -- a reader that waits for the gate would have found the pipe empty
        intro total hwait hclosed _
        exact absurd (hwoken.quiet total hwait hclosed (fun hc => hc)).1 hne
      · exact fun _ _ _ call hc => absurd hc (hb.not_testEmpty call)
  | openData size =>
    rw [BPipe.writerStep] at hs
    obtain ⟨⟩ := hs
    obtain ⟨w, told, given, he, hb, hwr⟩ := writeOn_spec { s with dataOpen := true }
      { call with rest := call.rest.drop size } hwrites.honest hbook htotal hlt
    unfold wrote
    rw [he]
    refine ⟨hpos, ?_, hwr, hreads, Woken.of_open⟩
    rw [hb.putting]
    exact hring
  | testEnd =>
    rw [BPipe.writerStep] at hs
    split at hs
    · obtain ⟨⟩ := hs
      obtain ⟨w, told, given, he, hb, hwr⟩ := hreturn rfl rfl s rfl rfl rfl
      rw [he]
      refine ⟨hpos, ?_, hwr, hreads, hwoken.writer (fun hc => hc) hb.not_testEmpty⟩
      rw [hb.putting]
      exact hring
    · obtain ⟨⟩ := hs
      exact hmove .setEnd s.spaceOpen rfl rfl nofun (fun _ => hwrites.atEnd _ _ rfl rfl)
        (fun _ => nofun) (fun hc => hc) nofun
  | setEnd =>
    rw [BPipe.writerStep] at hs
    obtain ⟨⟩ := hs
    obtain ⟨hrest, hvectors⟩ := hwrites.atEnd call .setEnd rfl rfl
    refine ⟨hpos, hring, ⟨hwrites.honest, hbook, ?_, ?_, ?_, ?_, ?_⟩,
      ⟨hreads.ended, hreads.size_pos, hreads.wait, ?_⟩, ?_, ?_⟩
    · intro hw; cases hw
    · rintro _ _ ⟨⟩
      exact ⟨htotal, hlt⟩
    · rintro _ _ ⟨⟩ hc
      exact absurd hc (by decide)
    · rintro _ _ ⟨⟩ _
      exact ⟨hrest, hvectors⟩
    · intro _ _ hw; cases hw
    · intro call pc hr hd
      obtain ⟨-, hd⟩ := hreads.drained call pc hr hd
      exact ⟨rfl, hd⟩
    · exact fun _ _ _ hc => absurd trivial hc
    · exact fun total hwait hclosed _ _ => (hwoken.quiet total hwait hclosed (fun hc => hc)).1
  | testEmpty =>
    rw [BPipe.writerStep] at hs
    split at hs
    · obtain ⟨⟩ := hs
      refine ⟨hpos, hring, hwrites.move rfl nofun (fun _ => hwrites.atEnd _ _ rfl rfl)
        (fun _ => nofun), hreads, ?_, ?_⟩
      · exact fun _ _ _ hc => absurd trivial hc
      · rintro _ _ _ _ ⟨⟩
    · rename_i hne
      obtain ⟨⟩ := hs
      obtain ⟨w, told, given, he, hb, hwr⟩ := hreturn rfl rfl s rfl rfl rfl
      rw [he]
      refine ⟨hpos, ?_, hwr, hreads, ?_, ?_⟩
      · rw [hb.putting]
        exact hring
      · exact fun total hwait hclosed _ => absurd (hwoken.testing total hwait hclosed call rfl) hne
      · exact fun _ _ _ call hc => absurd hc (hb.not_testEmpty call)
  | openEnd =>
    rw [BPipe.writerStep] at hs
    obtain ⟨⟩ := hs
    obtain ⟨w, told, given, he, hb, hwr⟩ := hreturn rfl rfl { s with dataOpen := true } rfl rfl rfl
    rw [he]
    refine ⟨hpos, ?_, hwr, hreads, Woken.of_open⟩
    rw [hb.putting]
    exact hring

/-- The reader comes to another place in `PrvRead`, with all else that it goes by the same. -/
theorem Reads.move {lastRead : Option (Bool × ℤ)} {call : ReadCall} {pc pc' : ReaderPc}
    (h : Reads size space halfClosed lastRead (.running call pc))
    (hwait : pc' = .wait → call.total = 0)
    (hread : call.drained = true → space = size → pc'.isRead = false) :
    Reads size space halfClosed lastRead (.running call pc') := by
  refine ⟨h.ended, ?_, ?_, ?_⟩
  · rintro _ _ ⟨⟩
    exact h.size_pos call pc rfl
  · rintro _ ⟨⟩
    exact hwait rfl
  · rintro _ _ ⟨⟩ hd
    obtain ⟨h1, h2, h3, -⟩ := h.drained call pc rfl hd
    exact ⟨h1, h2, h3, hread hd h2⟩

/-- **A step of the reader.** -/
theorem Kept.readerStep {call : ReadCall} {pc : ReaderPc} (h : s.Kept)
    (hr : s.reader = .running call pc) (ho : s.Observes .reader) (hs : s.readerStep call pc = some s') :
    s'.Kept := by
  obtain ⟨hpos, hring, hwrites, hreads, hwoken⟩ := h
  unfold Observes at ho
  rw [hr] at hring hreads hwoken ho
  -- another place in the same call, where nothing else has changed
  have hmove : ∀ (pc' : ReaderPc) (dataOpen : Bool),
      taking (.running call pc') = taking (.running call pc) → pc' ≠ .wait →
      (call.drained = true → s.spaceAvailable = s.size → pc'.isRead = false) →
      Kept { s with dataOpen := dataOpen, reader := .running call pc' } := by
    intro pc' dataOpen htake hwait hread
    refine ⟨hpos, ?_, hwrites, hreads.move (fun hc => absurd hc hwait) hread, Woken.of_busy ?_⟩
    · rw [← htake] at hring
      exact hring
    · rintro n ⟨_, ⟨⟩, -⟩
      exact hwait rfl
  -- where there is data, the pipe was not drained when the call began
  have hdata : pc.isRead = true → call.drained = false := by
    intro hp
    by_contra hd
    obtain ⟨-, -, -, hnot⟩ := hreads.drained call pc rfl (by simpa using hd)
    rw [hp] at hnot
    cases hnot
  cases pc with
  | testEmpty =>
    rw [BPipe.readerStep] at hs
    split at hs
    · rename_i hempty
      have ho := ho hempty
      split at hs
      · rename_i hblock
        rw [if_pos hblock] at ho
        obtain ⟨⟩ := hs
        refine ⟨hpos, hring, hwrites, hreads.move (fun _ => ho.1) (fun _ _ => rfl), ?_, ?_⟩
        · intro total _ hclosed hquiet
          refine ⟨hempty, ?_⟩
          by_contra hend
          exact hquiet (ho.2 (by simpa using hend) hclosed)
        · exact fun _ _ _ _ _ => hempty
      · rename_i hblock
        rw [if_neg hblock] at ho
        obtain ⟨⟩ := hs
        refine ⟨hpos, hring, hwrites, ⟨?_, nofun, nofun, nofun⟩, Woken.of_busy ?_⟩
        · intro result hc
          obtain ⟨hd, -⟩ := Prod.mk.inj (Option.some.inj hc)
          rw [ho] at hd
          cases hd
        · rintro n ⟨_, ⟨⟩, -⟩
    · obtain ⟨⟩ := hs
      exact hmove .close s.dataOpen rfl nofun (fun _ _ => rfl)
  | wait =>
    rw [BPipe.readerStep] at hs
    split at hs
    · obtain ⟨⟩ := hs
      exact hmove .close s.dataOpen rfl nofun (fun _ _ => rfl)
    · cases hs
  | close =>
    rw [BPipe.readerStep] at hs
    obtain ⟨⟩ := hs
    exact hmove .testAgain false rfl nofun (fun _ _ => rfl)
  | testAgain =>
    rw [BPipe.readerStep] at hs
    split at hs
    · obtain ⟨⟩ := hs
      exact hmove .openAgain s.dataOpen rfl nofun (fun _ _ => rfl)
    · rename_i hne
      obtain ⟨⟩ := hs
      exact hmove .copy s.dataOpen rfl nofun (fun _ hc => absurd hc hne)
  | openAgain =>
    rw [BPipe.readerStep] at hs
    obtain ⟨⟩ := hs
    obtain ⟨r, last, he, htake, hbusy, hrd⟩ := didRead_spec { s with dataOpen := true } call 0
      hreads.ended (fun hd => by
        obtain ⟨h1, h2, h3, -⟩ := hreads.drained call .openAgain rfl hd
        exact ⟨h1, h2, h3⟩)
    rw [he]
    refine ⟨hpos, ?_, hwrites, hrd, Woken.of_busy hbusy⟩
    rw [htake]
    exact hring
  | copy =>
    rw [BPipe.readerStep] at hs
    obtain ⟨⟩ := hs
    have hnot := hdata rfl
    refine ⟨hpos, hring.fetch (by omega), hwrites, hreads.move nofun ?_, Woken.of_busy ?_⟩
    · intro hd
      rw [hnot] at hd
      cases hd
    · rintro n ⟨_, ⟨⟩, -⟩
  | add bytes =>
    rw [BPipe.readerStep] at hs
    have hnot := hdata rfl
    have hrelease := hring.release
    have hnever : ∀ P : Prop, call.drained = true → P := by
      intro P hd
      rw [hnot] at hd
      cases hd
    split at hs
    · obtain ⟨⟩ := hs
      refine ⟨hpos, hrelease, hwrites, ⟨hreads.ended, ?_, nofun, ?_⟩, Woken.of_busy ?_⟩
      · rintro _ _ ⟨⟩
        exact hreads.size_pos call _ rfl
      · rintro _ _ ⟨⟩ hd
        exact hnever _ hd
      · rintro n ⟨_, ⟨⟩, -⟩
    · obtain ⟨⟩ := hs
      obtain ⟨r, last, he, htake, hbusy, hrd⟩ := didRead_spec { s with
        spaceAvailable := s.spaceAvailable + bytes.length
        received := s.received ++ bytes } call bytes.length hreads.ended (hnever _)
      rw [he]
      refine ⟨hpos, ?_, hwrites, hrd, Woken.of_busy hbusy⟩
      rw [htake]
      exact hrelease
  | openSpace size =>
    rw [BPipe.readerStep] at hs
    have hnot := hdata rfl
    obtain ⟨⟩ := hs
    obtain ⟨r, last, he, htake, hbusy, hrd⟩ := didRead_spec { s with spaceOpen := true } call size
      hreads.ended (fun hd => by rw [hnot] at hd; cases hd)
    rw [he]
    refine ⟨hpos, ?_, hwrites, hrd, Woken.of_busy hbusy⟩
    rw [htake]
    exact hring

theorem step_cases {a : Action} (hs : s.step a = some s') :
    (∃ vectors blocking writeEnd, a = .writeV vectors blocking writeEnd ∧ s.writer = .idle ∧
        s' = { s with given := flat vectors }.writeOn ⟨[], vectors, 0, blocking, writeEnd⟩) ∨
      (∃ sizes blocking, a = .readV sizes blocking ∧ s.reader = .idle ∧
        s' = s.readOn blocking (s.halfClosed && s.spaceAvailable == s.size) 0 sizes) ∨
      (∃ call pc, a = .writer ∧ s.writer = .running call pc ∧ s.writerStep call pc = some s') ∨
      (∃ call pc, a = .reader ∧ s.reader = .running call pc ∧ s.readerStep call pc = some s') := by
  unfold step at hs
  split at hs
  · split at hs
    · rename_i hw
      exact .inl ⟨_, _, _, rfl, hw, (Option.some.inj hs).symm⟩
    · cases hs
  · split at hs
    · rename_i hr
      exact .inr (.inl ⟨_, _, rfl, hr, (Option.some.inj hs).symm⟩)
    · cases hs
  · split at hs
    · cases hs
    · rename_i hw
      exact .inr (.inr (.inl ⟨_, _, rfl, hw, hs⟩))
  · split at hs
    · cases hs
    · rename_i hr
      exact .inr (.inr (.inr ⟨_, _, rfl, hr, hs⟩))

/-- **A step** that does not go wrong keeps the invariant. -/
theorem Kept.step {a : Action} (h : s.Kept) (hs : s.step a = some s') (ho : s.Observes a) :
    s'.Kept := by
  obtain ⟨vectors, blocking, writeEnd, rfl, hw, rfl⟩ | ⟨sizes, blocking, rfl, hr, rfl⟩ |
    ⟨call, pc, rfl, hw, hs⟩ | ⟨call, pc, rfl, hr, hs⟩ := step_cases hs
  · obtain ⟨hpos, hring, hwrites, hreads, hwoken⟩ := h
    rw [hw] at hring hwrites hwoken
    have hbook := hwrites.book
    rw [hwrites.idle rfl, append_nil] at hbook
    obtain ⟨w, told, given, he, hb, hwr⟩ := writeOn_spec { s with given := flat vectors }
      ⟨[], vectors, 0, blocking, writeEnd⟩ hwrites.honest
      (by
        show s.told ++ flat vectors = s.accepted ++ flat vectors
        rw [hbook]
        exact congrArg (· ++ flat vectors) (append_nil _))
      (Nat.zero_add _) ho
    rw [he]
    refine ⟨hpos, ?_, hwr, hreads, hwoken.writer (fun hc => hc) hb.not_testEmpty⟩
    rw [hb.putting]
    exact hring
  · obtain ⟨hpos, hring, hwrites, hreads, hwoken⟩ := h
    rw [hr] at hring
    obtain ⟨r, last, he, htake, hbusy, hrd⟩ := readOn_spec s blocking
      (s.halfClosed && s.spaceAvailable == s.size) hreads.ended sizes 0 (by
        intro hd
        simp only [Bool.and_eq_true, beq_iff_eq] at hd
        exact ⟨hd.1, hd.2, rfl⟩)
    rw [he]
    refine ⟨hpos, ?_, hwrites, hrd, Woken.of_busy hbusy⟩
    rw [htake]
    exact hring
  · exact h.writerStep hw ho hs
  · exact h.readerStep hr ho hs

theorem kept_init (h : 0 < size) : (init size).Kept where
  size_pos := h
  ring := Ring.empty h
  writes := ⟨prefix_refl _, rfl, fun _ => rfl, nofun, nofun, nofun, nofun⟩
  reads := ⟨nofun, nofun, nofun, nofun⟩
  woken := Woken.of_busy (by rintro n ⟨_, ⟨⟩, -⟩)

/-- **A pipe is a FIFO channel** in every state of every run whose steps do not go wrong. -/
theorem fifo_of_observes (size : ℕ) (h : 0 < size) (actions : List Action)
    (ho : AllSteps step Observes (init size) actions) : AllStates step Fifo (init size) actions :=
  (AllSteps.states (fun _ _ _ hk hs hq => hk.step hs hq) actions (init size) (kept_init h) ho).imp
    (fun _ hk => hk.fifo) actions (init size)

theorem fifo_of_observes_byte :
    AllStates step Fifo (init 4) (.writeV [⟨[7], by decide⟩] true false :: List.replicate 6 .writer ++
      .readV [2] true :: List.replicate 5 .reader) := by
  refine fifo_of_observes 4 (by decide) _ ?_
  refine AllSteps.cons rfl (show (1 : ℕ) < 2 ^ 31 by decide) ?_
  refine AllSteps.cons rfl rfl ?_
  refine AllSteps.cons rfl nofun ?_
  refine AllSteps.cons rfl trivial ?_
  refine AllSteps.cons rfl trivial ?_
  refine AllSteps.cons rfl trivial ?_
  refine AllSteps.cons rfl trivial ?_
  refine AllSteps.cons rfl trivial ?_
  refine AllSteps.cons rfl (fun h => absurd h (by decide)) ?_
  refine AllSteps.cons rfl trivial ?_
  refine AllSteps.cons rfl trivial ?_
  refine AllSteps.cons rfl trivial ?_
  exact AllSteps.cons rfl trivial trivial

/-- Two bytes that are written without blocking to a pipe with room for one. -/
def overfull : List Action :=
  .writeV [⟨[1, 2], by decide⟩] false false :: List.replicate 8 .writer

/-- A byte and the end, then two reads: the gate was closed by the first. -/
def drainedAfterEnd : List Action :=
  .writeV [⟨[1], by decide⟩] true true :: List.replicate 9 .writer ++
    .readV [1] true :: List.replicate 6 .reader ++ [.readV [1] true, .reader]

/-- A byte, and a read to two vectors of one. -/
def twoVectors : List Action :=
  .writeV [⟨[1], by decide⟩] true false :: List.replicate 6 .writer ++
    .readV [1, 1] true :: List.replicate 7 .reader

/-- The second byte is dropped though it is reported; the last reader waits for ever; the reader with
a byte waits for another. -/
theorem not_fifo :
    ¬ AllStates step Fifo (init 1) overfull ∧ ¬ AllStates step Fifo (init 1) drainedAfterEnd ∧
      ¬ AllStates step Fifo (init 1) twoVectors := by
  refine ⟨fun h => ?_, fun h => ?_, fun h => ?_⟩
  · have hlast := AllStates.last h (rfl : run step (init 1) overfull = some _)
    exact absurd (hlast.idle rfl) (by decide)
  · have hlast := AllStates.last h (rfl : run step (init 1) drainedAfterEnd = some _)
    exact hlast.woken 0 ⟨_, rfl, rfl⟩ rfl (Or.inr rfl)
  · have hlast := AllStates.last h (rfl : run step (init 1) twoVectors = some _)
    exact absurd (hlast.empty_handed 1 ⟨_, rfl, rfl⟩) (by decide)

end OpenBinder.BPipe
