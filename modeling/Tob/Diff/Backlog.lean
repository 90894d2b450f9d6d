import Tob.Diff.Boundaries
import Tob.Library.Turns

/-!
# Frames that stay behind

`on_read` takes at most one frame for every read, so a call can end with complete frames in the
buffer.
-/

namespace Tob

namespace WireFrame

/-! ## Frames among the first bytes of a stream -/

/-- The frames at the front of a stream that are `ready` when `len` bytes of it are there. -/
def readyCount (ready : WireFrame → Nat → Bool) : List WireFrame → Nat → Nat
  | [], _ => 0
  | w :: ws, len => if ready w len then readyCount ready ws (len - w.bytes.length) + 1 else 0

def complete (w : WireFrame) (len : Nat) : Bool := w.bytes.length ≤ len

def recognised (w : WireFrame) (len : Nat) : Bool := w.Recognised len

/-- The frames that are there as a whole. -/
def completeCount : List WireFrame → Nat → Nat := readyCount complete

/-- The frames `deserialize` accepts, one after the other. -/
def recognisedCount : List WireFrame → Nat → Nat := readyCount recognised

/-- A frame is ready no earlier than it is complete, and at the latest when something follows. -/
structure Ready (ready : WireFrame → Nat → Bool) : Prop where
  complete : ∀ w len, ready w len = true → w.bytes.length ≤ len
  followed : ∀ w len, w.bytes.length < len → ready w len = true

theorem ready_complete : Ready complete :=
  ⟨fun _ _ h ↦ of_decide_eq_true h, fun _ _ h ↦ decide_eq_true (le_of_lt h)⟩

theorem ready_recognised : Ready recognised :=
  ⟨fun _ _ h ↦ (of_decide_eq_true h).1,
    fun _ _ h ↦ decide_eq_true ⟨le_of_lt h, fun hb ↦ absurd hb.2 (ne_of_lt h)⟩⟩

/-- Frame `k` is counted when it is ready: the frames before it are complete and followed. -/
theorem lt_readyCount_iff {ready : WireFrame → Nat → Bool} (hready : Ready ready)
    {ws : List WireFrame} {k len : Nat} :
    k < readyCount ready ws len ↔ ∃ w ∈ (ws.drop k).head?,
      (stream (ws.take k)).length ≤ len ∧ ready w (len - (stream (ws.take k)).length) = true := by
  induction ws generalizing k len with
  | nil =>
      rw [readyCount, List.drop_nil]
      exact iff_of_false (Nat.not_lt_zero k) (by simp)
  | cons w ws ih =>
      rw [readyCount]
      cases k with
      | zero =>
          by_cases h : ready w len = true
          · rw [if_pos h]
            exact iff_of_true (Nat.succ_pos _) ⟨w, rfl, Nat.zero_le _, h⟩
          · rw [if_neg h]
            apply iff_of_false (Nat.lt_irrefl 0)
            rintro ⟨v, hv, -, hr⟩
            cases hv
            exact h hr
      | succ k =>
          rw [List.drop_succ_cons, List.take_succ_cons, stream, List.length_append]
          by_cases h : ready w len = true
          · have hle := hready.complete w len h
            rw [if_pos h, Nat.add_lt_add_iff_right, ih]
            apply exists_congr
            intro v
            rw [Nat.sub_add_eq]
            apply and_congr_right
            intro _
            apply and_congr_left
            intro _
            omega
          · rw [if_neg h]
            apply iff_of_false (Nat.not_lt_zero _)
            rintro ⟨v, -, hle, hr⟩
            apply h
            apply hready.followed
            have hv := hready.complete v _ hr
            have hpos := v.length_bytes_pos
            omega

/-- Behind the frames before it, frame `k` is recognised by its own bytes. -/
theorem lt_recognisedCount_iff (ws : List WireFrame) (k : Nat) (bytes : List UInt8) :
    k < recognisedCount ws (stream (ws.take k) ++ bytes).length ↔
      ∃ w ∈ (ws.drop k).head?, w.Recognised bytes.length := by
  have hiff : k < recognisedCount ws (stream (ws.take k) ++ bytes).length ↔ _ :=
    lt_readyCount_iff ready_recognised
  rw [hiff, List.length_append, Nat.add_sub_cancel_left]
  apply exists_congr
  intro w
  apply and_congr_right'
  rw [and_iff_right (Nat.le_add_right _ _)]
  exact decide_eq_true_iff

theorem readyCount_mono {ready : WireFrame → Nat → Bool} (hready : Ready ready)
    {ws : List WireFrame} {len len' : Nat} (h : len ≤ len') :
    readyCount ready ws len ≤ readyCount ready ws len' := by
  by_cases hequal : len = len'
  · rw [hequal]
  · by_contra hlt
    rcases (lt_readyCount_iff hready).mp (Nat.lt_of_not_le hlt) with ⟨w, hw, hle, hr⟩
    apply Nat.lt_irrefl (readyCount ready ws len')
    apply (lt_readyCount_iff hready).mpr
    refine ⟨w, hw, by omega, hready.followed w _ ?_⟩
    have hc := hready.complete w _ hr
    omega

/-- No frame is the front of another one. -/
theorem eq_of_prefix {v w : WireFrame} (h : v.bytes <+: w.bytes) :
    v.bytes.length = w.bytes.length := by
  rcases h with ⟨rest, hrest⟩
  have hspace : 0 + (w.bytes ++ [0]).length < 2 ^ 64 := by
    have hpayload := w.payload_lt
    have hform := w.form.size_le
    have hmask : (if w.mask.isSome then 4 else 0) ≤ 4 := by
      split
      · omega
      · omega
    rw [List.length_append, w.length_bytes]
    show 0 + (_ + 1) < _
    omega
  have hspace' : 0 + (v.bytes ++ (rest ++ [0])).length < 2 ^ 64 := by
    rw [← List.append_assoc, hrest]
    exact hspace
  have hlast : ¬ (w.Bare ∧ [(0 : UInt8)] = []) := fun hb ↦ List.cons_ne_nil _ _ hb.2
  have hlast' : ¬ (v.Bare ∧ rest ++ [0] = []) :=
    fun hb ↦ List.append_ne_nil_of_right_ne_nil rest (List.cons_ne_nil 0 []) hb.2
  -- both stop `deserialize` on the same bytes
  have hw := Frame.deserialize_complete .new [] hlast hspace
  have hv := Frame.deserialize_complete .new [] hlast' hspace'
  rw [← List.append_assoc, hrest, hw] at hv
  have hstop := congrArg Frame.Decoded.stop (Option.some.inj hv)
  simp only [Nat.zero_add] at hstop
  exact hstop.symm

end WireFrame

namespace DiffLogic

open WireFrame

variable {n : Nat} {conv : Conversions}

/-! ## A call of on_read -/

theorem onRead_append {d : DiffLogic n} {chunks : List (List UInt8)} {chunk : List UInt8}
    (hne : ∀ c ∈ chunks, c ≠ []) (hchunk : chunk ≠ []) :
    d.onRead conv (chunks ++ [chunk]) =
      (d.onRead conv chunks).andThen fun d ↦ d.readStep conv chunk := by
  induction chunks generalizing d with
  | nil =>
      rw [List.nil_append, onRead_cons conv d hchunk, onRead_nil, Outcome.andThen_returned]
      exact Outcome.andThen_returned_right _
  | cons c chunks ih =>
      have hc : c ≠ [] := hne c List.mem_cons_self
      rw [List.cons_append, onRead_cons conv d hc, onRead_cons conv d hc, Outcome.andThen_assoc]
      congr 1
      funext d
      exact ih fun c hc ↦ hne c (List.mem_cons_of_mem _ hc)

theorem receive_eq_none {d : DiffLogic n} (hv : d.Valid) {chunk : List UInt8}
    (hroom : BUFFER_SIZE < d.mOffset + chunk.length) : d.receive chunk = none := by
  rw [receive, writeAt, if_neg (by rw [hv.buffer]; omega)]
  rfl

-- A read that is not undefined has fitted its room.
theorem room_of_readStep {d d' : DiffLogic n} (hv : d.Valid) {chunk : List UInt8}
    (h : d.readStep conv chunk = .returned d') : d.mOffset + chunk.length ≤ BUFFER_SIZE := by
  by_contra hroom
  rw [readStep, receive_eq_none hv (by omega)] at h
  cases h

/-- What has arrived after `s` reads of a call, the bytes before it included. -/
def got (d : DiffLogic n) (chunks : List (List UInt8)) (s : Nat) : Nat :=
  d.mOffset + (chunks.take s).flatten.length

/-- The frames taken in a call if each read takes one that is recognised by then. -/
def servedFrames (d : DiffLogic n) (ws : List WireFrame) (chunks : List (List UInt8)) : Nat :=
  served (fun s ↦ recognisedCount ws (d.got chunks s)) chunks.length

theorem got_length {d : DiffLogic n} (hv : d.Valid) (chunks : List (List UInt8)) :
    d.got chunks chunks.length = (d.pending ++ chunks.flatten).length := by
  rw [got, List.take_length, List.length_append, hv.length_pending]

theorem servedFrames_le (d : DiffLogic n) (ws : List WireFrame) (chunks : List (List UInt8)) :
    d.servedFrames ws chunks ≤ recognisedCount ws (d.got chunks chunks.length) := by
  by_cases hnil : chunks.length = 0
  · rw [servedFrames, hnil]
    exact Nat.zero_le _
  · exact served_le _ (Nat.pos_of_ne_zero hnil)

-- The reads before the last one do not see it.
theorem servedFrames_concat (d : DiffLogic n) (ws : List WireFrame) (chunks : List (List UInt8))
    (chunk : List UInt8) :
    d.servedFrames ws (chunks ++ [chunk]) = min (d.servedFrames ws chunks + 1)
      (recognisedCount ws (d.got (chunks ++ [chunk]) (chunks ++ [chunk]).length)) := by
  have hbefore : served (fun s ↦ recognisedCount ws (d.got (chunks ++ [chunk]) s))
      chunks.length = d.servedFrames ws chunks := by
    apply served_congr
    intro s _ hs
    rw [got, got, List.take_append_of_le_length hs]
  rw [servedFrames, List.length_append, List.length_singleton, served, hbefore]

-- What was served before is recognised now.
theorem servedFrames_le_next {d : DiffLogic n} (hv : d.Valid) (ws : List WireFrame)
    (chunks : List (List UInt8)) (chunk : List UInt8) :
    d.servedFrames ws chunks ≤
      recognisedCount ws (d.got (chunks ++ [chunk]) (chunks ++ [chunk]).length) := by
  apply (d.servedFrames_le ws chunks).trans
  apply readyCount_mono ready_recognised
  rw [got_length hv, got_length hv, List.flatten_append, ← List.append_assoc]
  exact (List.prefix_append _ _).length_le

theorem stream_take_succ {ws ws' : List WireFrame} {k : Nat} {w : WireFrame}
    (h : ws.drop k = w :: ws') : stream (ws.take (k + 1)) = stream (ws.take k) ++ w.bytes := by
  rw [List.take_add, h, stream_append]
  exact congrArg (stream (ws.take k) ++ ·) (List.append_nil w.bytes)

-- An iteration behind the first `k` frames of a stream, in terms of what is recognised.
theorem Takes.next {ws : List WireFrame} {k : Nat} {bytes rest : List UInt8}
    (h : Takes (ws.drop k) bytes rest) :
    (k < recognisedCount ws (stream (ws.take k) ++ bytes).length ∧
        stream (ws.take k) ++ bytes = stream (ws.take (k + 1)) ++ rest) ∨
      (recognisedCount ws (stream (ws.take k) ++ bytes).length ≤ k ∧ rest = bytes) := by
  have hiff := lt_recognisedCount_iff ws k bytes
  rcases h with ⟨hrest, hno⟩ | ⟨w, ws', hws, hr, hbytes⟩
  · right
    refine ⟨Nat.le_of_not_lt fun hlt ↦ ?_, hrest⟩
    rcases hiff.mp hlt with ⟨w, hw, hr⟩
    exact hno w hw hr
  · left
    refine ⟨hiff.mpr ⟨w, by rw [hws]; rfl, hr⟩, ?_⟩
    rw [stream_take_succ hws, List.append_assoc, ← hbytes]

theorem prefix_stream_drop {ws : List WireFrame} {k : Nat} {bytes : List UInt8}
    (h : stream (ws.take k) ++ bytes <+: stream ws) : bytes <+: stream (ws.drop k) := by
  rw [← List.take_append_drop k ws, stream_append, List.take_append_drop] at h
  exact (List.prefix_append_right_inj _).mp h

/-- After a call its first frames are gone, one for each read that found one. -/
theorem onRead_served {d d' : DiffLogic n} (h : d.InWork) {ws : List WireFrame}
    {chunks : List (List UInt8)} (hne : ∀ c ∈ chunks, c ≠ [])
    (hp : d.pending ++ chunks.flatten <+: stream ws) (hcall : d.onRead conv chunks = .returned d') :
    d'.InWork ∧ d.pending ++ chunks.flatten =
      stream (ws.take (d.servedFrames ws chunks)) ++ d'.pending := by
  induction chunks using List.reverseRecOn generalizing d' with
  | nil =>
      rw [onRead_nil] at hcall
      rw [← Outcome.returned.inj hcall]
      refine ⟨h, ?_⟩
      rw [List.flatten_nil, List.append_nil]
      rfl
  | append_singleton chunks chunk ih =>
      have hne' : ∀ c ∈ chunks, c ≠ [] := fun c hc ↦ hne c (List.mem_append_left _ hc)
      have hchunk : chunk ≠ [] := hne chunk (List.mem_append_right _ List.mem_cons_self)
      rw [onRead_append hne' hchunk] at hcall
      rcases Outcome.andThen_eq_returned_iff.mp hcall with ⟨d₁, hcall, hstep⟩
      have hflatten : d.pending ++ (chunks ++ [chunk]).flatten =
          d.pending ++ chunks.flatten ++ chunk := by
        rw [List.flatten_append, List.flatten_singleton, List.append_assoc]
      rw [hflatten] at hp
      have hbefore := ih hne' ((List.prefix_append _ _).trans hp) hcall
      have hbytes : d.pending ++ chunks.flatten ++ chunk =
          stream (ws.take (d.servedFrames ws chunks)) ++ (d₁.pending ++ chunk) := by
        rw [hbefore.2, List.append_assoc]
      rw [hbytes] at hp
      have hspec := (readStep_spec hbefore.1 (room_of_readStep hbefore.1.valid hstep)
        (prefix_stream_drop hp)).2 d' hstep
      have hle := servedFrames_le_next h.valid ws chunks chunk
      refine ⟨hspec.1, ?_⟩
      rw [servedFrames_concat]
      rw [got_length h.valid, hflatten, hbytes] at hle ⊢
      rcases hspec.2.next with ⟨hlt, hnext⟩ | ⟨hge, hrest⟩
      · rw [Nat.min_eq_left hlt]
        exact hnext
      · rw [Nat.min_eq_right (by omega), Nat.le_antisymm hge hle, hrest]

/-- There is a frame at the head of the buffer when a frame behind the first `k` is complete. -/
theorem head_complete_iff {ws : List WireFrame} {k : Nat} {bytes : List UInt8}
    (hp : stream (ws.take k) ++ bytes <+: stream ws) :
    (∃ w : WireFrame, w.bytes <+: bytes) ↔
      k < completeCount ws (stream (ws.take k) ++ bytes).length := by
  have hrest := prefix_stream_drop hp
  rw [completeCount, lt_readyCount_iff ready_complete, List.length_append, Nat.add_sub_cancel_left]
  apply Iff.intro
  · rintro ⟨v, hv⟩
    cases hws : ws.drop k with
    | nil =>
        rw [hws, stream, List.prefix_nil] at hrest
        have hlength := hv.length_le
        have hpos := v.length_bytes_pos
        rw [hrest, List.length_nil] at hlength
        omega
    | cons w ws' =>
        rw [hws, stream] at hrest
        refine ⟨w, rfl, Nat.le_add_right _ _, decide_eq_true ?_⟩
        -- one of the two frames is the front of the other
        have hvle := hv.length_le
        rcases Nat.le_total v.bytes.length w.bytes.length with hle | hle
        · have hfront : v.bytes <+: w.bytes :=
            List.prefix_of_prefix_length_le (hv.trans hrest) (List.prefix_append _ _) hle
          rw [← eq_of_prefix hfront]
          exact hvle
        · omega
  · rintro ⟨w, hw, -, hc⟩
    cases hws : ws.drop k with
    | nil => rw [hws] at hw; cases hw
    | cons v ws' =>
        rw [hws] at hw hrest
        cases hw
        exact ⟨w, List.prefix_of_prefix_length_le (List.prefix_append _ _) hrest
          (of_decide_eq_true hc)⟩

/-! ## Every call from every state -/

/-- A call that returns is made of iterations. -/
theorem Reads.onRead {d₀ d d' : DiffLogic n} (h₀ : d₀.InWork) (hzero : d₀.mOffset = 0)
    {ws : List WireFrame} {received : List UInt8} {consumed chunks : List (List UInt8)}
    (hreads : Reads conv d₀ received consumed d) (hne : ∀ c ∈ chunks, c ≠ [])
    (hp : received ++ chunks.flatten <+: stream ws) (hcall : d.onRead conv chunks = .returned d') :
    ∃ consumed', Reads conv d₀ (received ++ chunks.flatten) consumed' d' := by
  induction chunks generalizing received consumed d with
  | nil =>
      rw [onRead_nil] at hcall
      rw [← Outcome.returned.inj hcall, List.flatten_nil, List.append_nil]
      exact ⟨consumed, hreads⟩
  | cons chunk chunks ih =>
      have hchunk : chunk ≠ [] := hne chunk List.mem_cons_self
      rw [onRead_cons conv d hchunk] at hcall
      rcases Outcome.andThen_eq_returned_iff.mp hcall with ⟨d₁, hstep, hcall⟩
      rw [List.flatten_cons, ← List.append_assoc] at hp ⊢
      have hinWork := (hreads.aligned h₀ hzero
        ((List.prefix_append _ _).trans ((List.prefix_append _ _).trans hp))).inWork
      have hroom := room_of_readStep hinWork.valid hstep
      exact ih (hreads.read hchunk hroom hstep) (fun c hc ↦ hne c (List.mem_cons_of_mem _ hc)) hp
        hcall

-- A full buffer starts with a frame that is not complete: a complete one has made room.
theorem Reads.not_full {d₀ d : DiffLogic n} (h₀ : d₀.InWork) (hzero : d₀.mOffset = 0)
    {ws : List WireFrame} {received : List UInt8} {consumed : List (List UInt8)}
    (hreads : Reads conv d₀ received consumed d) (hp : received <+: stream ws)
    (hfull : d.mOffset = BUFFER_SIZE) : ¬ ∃ w : WireFrame, w.bytes <+: d.pending := by
  have hsize : BUFFER_SIZE = 50000 := rfl
  cases hreads with
  | start => omega
  | @read received consumed d chunk d' hreads _ hroom hstep =>
      have haligned := hreads.aligned h₀ hzero ((List.prefix_append _ _).trans hp)
      have hleft := haligned.left hp
      have hspec := (readStep_spec haligned.inWork hroom hleft).2 _ hstep
      have hlength := hspec.1.valid.length_pending
      rcases hspec.2 with ⟨hrest, hno⟩ | ⟨w, -, -, -, hgot⟩
      · intro hhead
        rw [hrest] at hhead hlength
        have hcount := (head_complete_iff (k := 0) hleft).mp hhead
        rcases (lt_readyCount_iff ready_complete).mp hcount with ⟨v, hv, -, hc⟩
        have hle : v.bytes.length ≤ (d.pending ++ chunk).length := of_decide_eq_true hc
        apply hno v hv
        refine ⟨hle, fun hb ↦ ?_⟩
        -- a bare frame does not fill the buffer
        have hbytes := v.length_bytes
        have hform := v.form.size_le
        rw [hb.1.1, hb.1.2, List.length_nil] at hbytes
        simp only [Option.isSome_none, Bool.false_eq_true, if_false] at hbytes
        omega
      · have hsum := congrArg List.length hgot
        rw [List.length_append, List.length_append, haligned.inWork.valid.length_pending] at hsum
        have hpos := w.length_bytes_pos
        omega

/-- A call leaves no complete frame at the head of the buffer exactly if no more frames are complete
at its end than it has reads, and behind each read no more than were recognised then and one for
each read that follows.  A full buffer never has one there. -/
theorem onRead_leaves_no_frame_iff {d₀ d d' : DiffLogic n} (h₀ : d₀.InWork)
    (hzero : d₀.mOffset = 0) {ws : List WireFrame} {received : List UInt8}
    {consumed chunks : List (List UInt8)} (hreads : Reads conv d₀ received consumed d)
    (hne : ∀ c ∈ chunks, c ≠ []) (hp : received ++ chunks.flatten <+: stream ws)
    (hcall : d.onRead conv chunks = .returned d') :
    ((¬ ∃ w : WireFrame, w.bytes <+: d'.pending) ↔
      completeCount (ws.drop consumed.length) (d.got chunks chunks.length) ≤ chunks.length ∧
        ∀ s, 0 < s → s ≤ chunks.length →
          completeCount (ws.drop consumed.length) (d.got chunks chunks.length) ≤
            recognisedCount (ws.drop consumed.length) (d.got chunks s) + (chunks.length - s)) ∧
      ¬ (d'.mOffset = BUFFER_SIZE ∧ ∃ w : WireFrame, w.bytes <+: d'.pending) := by
  have haligned := hreads.aligned h₀ hzero ((List.prefix_append _ _).trans hp)
  have hleft := haligned.left hp
  have hserved := onRead_served haligned.inWork hne hleft hcall
  apply And.intro
  · rw [hserved.2] at hleft
    rw [head_complete_iff hleft, ← hserved.2, ← got_length haligned.inWork.valid, Nat.not_lt]
    exact le_served_iff
  · rcases hreads.onRead h₀ hzero hne hp hcall with ⟨consumed', hreads'⟩
    exact fun hfull ↦ hreads'.not_full h₀ hzero hp hfull.1 hfull.2

theorem onRead_leaves_no_frame_iff_example :
    ∃ d', idle.onRead noJson cutReads = .returned d' ∧
      ¬ ∃ w : WireFrame, w.bytes <+: d'.pending := by
  rcases cut_reads with ⟨d₁, d₂, hfirst, -, -, hsecond, -⟩
  have hcall : idle.onRead noJson cutReads = .returned d₂ := by
    rw [cutReads, onRead_cons _ _ (by decide), hfirst, Outcome.andThen_returned,
      onRead_cons _ _ (by decide), hsecond]
    rfl
  have hp : [] ++ cutReads.flatten <+: stream [textFrame, textFrame] := List.prefix_refl _
  refine ⟨d₂, hcall, ?_⟩
  apply (onRead_leaves_no_frame_iff idle_inWork rfl .start (by decide) hp hcall).1.mpr
  refine ⟨by decide, fun s hpos hle ↦ ?_⟩
  -- after the first read one frame is recognised, after the second both
  have hs : s = 1 ∨ s = 2 := by
    change s ≤ 2 at hle
    omega
  rcases hs with hs | hs
  · rw [hs]
    decide
  · rw [hs]
    decide

/-- Two frames in one read: the second one stays. -/
theorem onRead_leaves_second_frame :
    idle.InWork ∧ idle.mOffset = 0 ∧ textFrame.bytes.length ≤ BUFFER_SIZE ∧
      ∃ d', idle.onRead noJson [stream [textFrame, textFrame]] = .returned d' ∧
        textFrame.bytes <+: d'.pending := by
  have hgot : idle.pending ++ stream [textFrame, textFrame] =
      textFrame.bytes ++ textFrame.bytes := by
    rw [idle_pending]
    rfl
  have hparse : noJson.parse textFrame.plain = .ok none := rfl
  rcases readStep_invalid idle_inWork (by decide) hgot (by decide) hparse with
    ⟨d', hstep, -, hpending⟩
  refine ⟨idle_inWork, rfl, by decide, d', ?_, ?_⟩
  · rw [onRead_cons _ _ (by decide), hstep]
    rfl
  · rw [hpending]

end DiffLogic

end Tob
