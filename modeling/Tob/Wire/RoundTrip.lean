import Tob.Wire.Serialize

/-!
# Encoding and decoding a stream of frames

`serialize` for every frame of a list, then `deserialize` from the front of the bytes as often.
-/

namespace Tob

namespace Frame

/-! ## The frame that is on the wire -/

def maskOf (frame : Frame) : Option UInt32 := if frame.masked ≠ 0 then some frame.maskKey else none

theorem maskOf_isSome (frame : Frame) : frame.maskOf.isSome = true ↔ frame.masked ≠ 0 := by
  unfold maskOf
  by_cases hm : frame.masked ≠ 0
  · rw [if_pos hm]
    exact iff_of_true rfl hm
  · rw [if_neg hm]
    exact iff_of_false Bool.false_ne_true hm

/-- A frame with a payload that fits, as `serialize` writes it. -/
def toWire (frame : Frame) (form : LengthForm) (payload : List UInt8)
    (fits : payload.length < form.bound) : WireFrame where
  first := (if frame.fin ≠ 0 then 0x80 else 0) ||| (frame.type &&& 0x0f)
  form := form
  mask := frame.maskOf
  payload := payload
  fits := fits

theorem toWire_start (frame : Frame) {form : LengthForm} {payload : List UInt8}
    (fits : payload.length < form.bound) :
    (frame.toWire form payload fits).start =
      frame.startBytes (UInt8.ofNat (form.code payload.length)) ++
        beBytes form.size payload.length := by
  have hsecond : (frame.toWire form payload fits).second =
      (if frame.masked ≠ 0 then 0x80 else 0) ||| UInt8.ofNat (form.code payload.length) := by
    have hmask : (frame.toWire form payload fits).mask = frame.maskOf := rfl
    rw [WireFrame.second, hmask]
    by_cases hm : frame.masked ≠ 0
    · rw [if_pos hm, if_pos (frame.maskOf_isSome.mpr hm)]
      rfl
    · rw [if_neg hm, if_neg (fun h ↦ hm (frame.maskOf_isSome.mp h))]
      rfl
  rw [WireFrame.start, hsecond]
  rfl

theorem toWire_maskBytes (frame : Frame) {form : LengthForm} {payload : List UInt8}
    (fits : payload.length < form.bound) :
    (frame.toWire form payload fits).maskBytes = frame.keyBytes := by
  unfold WireFrame.maskBytes keyBytes toWire maskOf
  by_cases hm : frame.masked ≠ 0
  · rw [if_pos hm, if_pos hm]
  · rw [if_neg hm, if_neg hm]

theorem toWire_plain (frame : Frame) {form : LengthForm} {payload : List UInt8}
    (fits : (frame.body payload).length < form.bound) :
    (frame.toWire form (frame.body payload) fits).plain = payload := by
  unfold WireFrame.plain toWire maskOf body
  by_cases hm : frame.masked ≠ 0
  · simp only [if_pos hm]
    exact maskPayload_maskPayload _ _
  · simp only [if_neg hm]

end Frame

/-! ## Streams -/

/-- What is compared at the two ends: opcode, flags, declared length and payload. -/
structure Message where
  type : UInt8
  fin : Bool
  masked : Bool
  payloadLength : Nat
  payload : List UInt8
  deriving DecidableEq, Repr

/-- A frame to be sent and its payload. -/
structure Outgoing where
  frame : Frame
  payload : List UInt8

def Outgoing.message (o : Outgoing) : Message :=
  ⟨o.frame.type, o.frame.fin ≠ 0, o.frame.masked ≠ 0, o.payload.length, o.payload⟩

/-- The outputs of `serialize`, one behind the other. -/
def encodeAll : List Outgoing → Option (List UInt8)
  | [] => some []
  | o :: rest =>
      (Frame.serialize o.frame o.payload).bind fun (_, bytes) ↦
      (encodeAll rest).map fun stream ↦ bytes ++ stream

/-- `deserialize` at the front; `none` if it returns `data`. -/
def decodeNext (data : Nat) (stream : List UInt8) : Option (Message × Nat × List UInt8) :=
  (Frame.deserialize .new data stream stream.length).bind fun d ↦
  if d.stop = data then none
  else
    (readAt d.mem (d.frame.payload - data) d.frame.payloadLength).bind fun payload ↦
    some (⟨d.frame.type, d.frame.fin ≠ 0, d.frame.masked ≠ 0, d.frame.payloadLength, payload⟩,
      d.stop, d.mem.drop (d.stop - data))

/-- As many calls of `deserialize`, each from where the last one stopped, and what is left. -/
def decodeAll : Nat → Nat → List UInt8 → Option (List Message × List UInt8)
  | 0, _, stream => some ([], stream)
  | count + 1, data, stream =>
      (decodeNext data stream).bind fun (message, data, stream) ↦
      (decodeAll count data stream).map fun (messages, stream) ↦ (message :: messages, stream)

theorem decodeNext_wire {w : WireFrame} {data : Nat} {rest : List UInt8}
    (hlast : ¬ (w.Bare ∧ rest = [])) (hspace : data + (w.bytes ++ rest).length < 2 ^ 64) :
    decodeNext data (w.bytes ++ rest) =
      some (⟨w.first &&& 0x0f, w.first &&& 0x80 ≠ 0, w.mask.isSome, w.payload.length, w.plain⟩,
        data + w.bytes.length, rest) := by
  have hpos : 0 < w.bytes.length := by rw [w.length_bytes]; omega
  have hstop : data + w.bytes.length ≠ data := by omega
  have hdecode := Frame.deserialize_complete .new [] hlast hspace
  rw [List.append_nil, List.append_nil] at hdecode
  have hmask : decide (w.second &&& 0x80 ≠ 0) = w.mask.isSome := by
    rw [Bool.eq_iff_iff, decide_eq_true_iff]
    exact w.second_masked
  have hread := Frame.readAt_decoded w data rest
  have hdrop : (w.start ++ w.maskBytes ++ w.plain ++ rest).drop (data + w.bytes.length - data) =
      rest := by
    have hlen : data + w.bytes.length - data = (w.start ++ w.maskBytes ++ w.plain).length := by
      rw [Nat.add_sub_cancel_left]
      simp only [WireFrame.bytes, List.length_append, w.length_plain]
    rw [hlen, List.drop_left]
  rw [decodeNext, hdecode, Option.bind_some, if_neg hstop, hread, Option.bind_some, hdrop, ← hmask]
  rfl

theorem decodeNext_bare {w : WireFrame} {data : Nat} (hbare : w.Bare)
    (hspace : data + w.bytes.length < 2 ^ 64) : decodeNext data w.bytes = none := by
  rcases Frame.deserialize_bare .new [] hbare hspace with ⟨frame', he⟩
  rw [List.append_nil] at he
  rw [decodeNext, he, Option.bind_some, if_pos rfl]

/-! ## The round trip -/

namespace Outgoing

variable (o : Outgoing)

def form : LengthForm := if o.payload.length ≤ 0x7D then .short else .long

theorem fits (h : o.payload.length ≤ 0xFFFF) : (o.frame.body o.payload).length < o.form.bound := by
  rw [Frame.length_body, form]
  by_cases hshort : o.payload.length ≤ 0x7D
  · rw [if_pos hshort]
    show o.payload.length < 0x7E
    omega
  · rw [if_neg hshort]
    show o.payload.length < 2 ^ 63
    omega

def wire (h : o.payload.length ≤ 0xFFFF) : WireFrame :=
  o.frame.toWire o.form (o.frame.body o.payload) (o.fits h)

/-- Up to 65535 bytes `serialize` writes a well-formed frame. -/
theorem serialize_wire (h : o.payload.length ≤ 0xFFFF) :
    Frame.serialize o.frame o.payload =
      some ({ o.frame with payloadLength := o.payload.length }, (o.wire h).bytes) := by
  have hstart : o.frame.startBytes (Frame.lengthField o.payload.length).1 ++
      Frame.lengthBytes o.payload.length = (o.wire h).start := by
    rw [wire, Frame.toWire_start, Frame.length_body, form, Frame.lengthField, Frame.lengthBytes]
    by_cases hshort : o.payload.length ≤ 0x7D
    · rw [if_pos hshort, if_pos hshort, if_pos hshort]
      rfl
    · rw [if_neg hshort, if_neg hshort, if_neg hshort, if_neg (by omega), if_neg (by omega)]
      rfl
  rw [Frame.serialize_eq _ (by omega), hstart, WireFrame.bytes, wire, Frame.toWire_maskBytes]
  rfl

/-- Above, it writes the low 16 bits of the length and all of the payload. -/
theorem serialize_truncated (h : 0xFFFF < o.payload.length)
    (hsize : o.payload.length + 14 < 2 ^ 64) :
    ∃ (w : WireFrame) (after : List UInt8), Frame.serialize o.frame o.payload =
        some ({ o.frame with payloadLength := o.payload.length }, w.bytes ++ after) ∧
      w.payload.length < o.payload.length ∧ after ≠ [] := by
  have hmod : o.payload.length % 2 ^ 16 < 2 ^ 16 := Nat.mod_lt _ (by decide)
  have hlt : o.payload.length % 2 ^ 16 < o.payload.length := by omega
  have hlen : ((o.frame.body o.payload).take (o.payload.length % 2 ^ 16)).length =
      o.payload.length % 2 ^ 16 := by
    rw [List.length_take, Frame.length_body]
    omega
  have hfits : ((o.frame.body o.payload).take (o.payload.length % 2 ^ 16)).length <
      LengthForm.word.bound := by
    rw [hlen]
    exact hmod
  refine ⟨o.frame.toWire .word _ hfits,
    (o.frame.body o.payload).drop (o.payload.length % 2 ^ 16), ?_, ?_, ?_⟩
  · have hstart : o.frame.startBytes (Frame.lengthField o.payload.length).1 ++
        Frame.lengthBytes o.payload.length = (o.frame.toWire .word _ hfits).start := by
      have htrunc : beBytes 2 (o.payload.length % 2 ^ 16) = beBytes 2 o.payload.length :=
        beBytes_congr (Nat.mod_mod _ _)
      rw [Frame.toWire_start, hlen, Frame.lengthField, Frame.lengthBytes, if_neg (by omega),
        if_pos h, if_neg (by omega), if_pos h, ← htrunc]
      rfl
    rw [Frame.serialize_eq _ hsize, hstart, WireFrame.bytes, Frame.toWire_maskBytes,
      List.append_assoc _ (WireFrame.payload _)]
    show _ = some (_, _ ++ ((o.frame.body o.payload).take _ ++ (o.frame.body o.payload).drop _))
    rw [List.take_append_drop]
  · show ((o.frame.body o.payload).take _).length < _
    rw [hlen]
    exact hlt
  · rw [← List.length_pos_iff, List.length_drop, Frame.length_body]
    omega

theorem wire_bare_iff (h : o.payload.length ≤ 0xFFFF) :
    (o.wire h).Bare ↔ o.frame.masked = 0 ∧ o.payload = [] := by
  have hmask : (o.wire h).mask = none ↔ o.frame.masked = 0 := by
    show o.frame.maskOf = none ↔ _
    rw [← Option.not_isSome_iff_eq_none, o.frame.maskOf_isSome, not_not]
  have hbody : (o.wire h).payload = [] ↔ o.payload = [] := by
    show o.frame.body o.payload = [] ↔ _
    rw [← List.length_eq_zero_iff, Frame.length_body, List.length_eq_zero_iff]
  rw [WireFrame.Bare, hmask, hbody]

-- The first byte gives opcode and fin flag back.
theorem first_fields {type : UInt8} (h : type < 16) :
    ((0x80 ||| (type &&& 0x0f)) &&& 0x0f = type ∧ (0x80 ||| (type &&& 0x0f)) &&& 0x80 ≠ 0) ∧
      ((0 : UInt8) ||| (type &&& 0x0f)) &&& 0x0f = type ∧
        ((0 : UInt8) ||| (type &&& 0x0f)) &&& 0x80 = 0 := by
  have key : ∀ n < 16,
      ((0x80 ||| (UInt8.ofNat n &&& 0x0f)) &&& 0x0f = UInt8.ofNat n ∧
        (0x80 ||| (UInt8.ofNat n &&& 0x0f)) &&& 0x80 ≠ 0) ∧
      ((0 : UInt8) ||| (UInt8.ofNat n &&& 0x0f)) &&& 0x0f = UInt8.ofNat n ∧
        ((0 : UInt8) ||| (UInt8.ofNat n &&& 0x0f)) &&& 0x80 = 0 := by decide
  have hn := key type.toNat (UInt8.lt_iff_toNat_lt.mp h)
  rw [UInt8.ofNat_toNat] at hn
  exact hn

theorem wire_message (h : o.payload.length ≤ 0xFFFF) (htype : o.frame.type < 16) :
    (⟨(o.wire h).first &&& 0x0f, (o.wire h).first &&& 0x80 ≠ 0, (o.wire h).mask.isSome,
      (o.wire h).payload.length, (o.wire h).plain⟩ : Message) = o.message := by
  rcases first_fields htype with ⟨⟨ht, hf⟩, ht', hf'⟩
  have hmask : (o.wire h).mask.isSome = decide (o.frame.masked ≠ 0) := by
    rw [Bool.eq_iff_iff, decide_eq_true_iff]
    exact o.frame.maskOf_isSome
  have hlen : (o.wire h).payload.length = o.payload.length := Frame.length_body _ _
  have hplain : (o.wire h).plain = o.payload := Frame.toWire_plain _ _
  have hfirst : (o.wire h).first =
      (if o.frame.fin ≠ 0 then 0x80 else 0) ||| (o.frame.type &&& 0x0f) := rfl
  have htypeEq : (o.wire h).first &&& 0x0f = o.frame.type := by
    rw [hfirst]
    by_cases hfin : o.frame.fin ≠ 0
    · rw [if_pos hfin]
      exact ht
    · rw [if_neg hfin]
      exact ht'
  have hfinEq : (o.wire h).first &&& 0x80 ≠ 0 ↔ o.frame.fin ≠ 0 := by
    rw [hfirst]
    by_cases hfin : o.frame.fin ≠ 0
    · rw [if_pos hfin]
      exact iff_of_true hf hfin
    · rw [if_neg hfin]
      exact iff_of_false (not_not.mpr hf') hfin
  rw [hmask, hlen, hplain, htypeEq, message, decide_eq_decide.mpr hfinEq]

end Outgoing

theorem encodeAll_cons_ne_nil {o : Outgoing} {rest : List Outgoing} {stream : List UInt8}
    (hsize : o.payload.length + 14 < 2 ^ 64) (h : encodeAll (o :: rest) = some stream) :
    stream ≠ [] := by
  rw [encodeAll, Frame.serialize_eq _ hsize, Option.bind_some] at h
  rcases Option.map_eq_some_iff.mp h with ⟨after, -, rfl⟩
  exact List.cons_ne_nil _ _

/-- Behind a decoded frame it is the rest that decides. -/
theorem decodeAll_succ_iff {count data data' : Nat} {stream rest : List UInt8} {message : Message}
    (hnext : decodeNext data stream = some (message, data', rest)) (messages : List Message) :
    decodeAll (count + 1) data stream = some (message :: messages, []) ↔
      decodeAll count data' rest = some (messages, []) := by
  rw [decodeAll, hnext, Option.bind_some]
  simp only
  cases decodeAll count data' rest with
  | none => exact iff_of_false nofun nofun
  | some r =>
      rcases r with ⟨messages', left⟩
      simp

/-- The last frame is taken for a part of one if it is empty and not masked. -/
theorem decodeAll_bare {w : WireFrame} {count data : Nat} (hbare : w.Bare)
    (hspace : data + w.bytes.length < 2 ^ 64) : decodeAll (count + 1) data w.bytes = none := by
  rw [decodeAll, decodeNext_bare hbare hspace, Option.bind_none]

/-- The length that is read of a long frame is too small. -/
theorem decodeAll_truncated {o : Outgoing} {w : WireFrame} {after : List UInt8}
    (hlt : w.payload.length < o.payload.length) (hafter : after ≠ []) {data : Nat}
    (hspace : data + (w.bytes ++ after).length < 2 ^ 64) (count : Nat) (messages : List Message) :
    decodeAll (count + 1) data (w.bytes ++ after) ≠ some (o.message :: messages, []) := by
  intro hdecode
  rw [decodeAll, decodeNext_wire (fun h ↦ hafter h.2) hspace, Option.bind_some] at hdecode
  rcases Option.map_eq_some_iff.mp hdecode with ⟨⟨messages', left⟩, -, heq⟩
  have hhead := (List.cons.inj (Prod.mk.inj heq).1).1
  have hlength : w.payload.length = o.payload.length := congrArg Message.payloadLength hhead
  omega

/-- Decoding undoes encoding exactly if no payload has more than 65535 bytes and the last frame is
not an empty one without a mask. -/
theorem decodeAll_encodeAll_iff {frames : List Outgoing} (htype : ∀ o ∈ frames, o.frame.type < 16)
    (hsize : ∀ o ∈ frames, o.payload.length < 2 ^ 63) :
    ∃ stream, encodeAll frames = some stream ∧ ∀ data, data + stream.length < 2 ^ 64 →
      (decodeAll frames.length data stream = some (frames.map Outgoing.message, []) ↔
        (∀ o ∈ frames, o.payload.length ≤ 0xFFFF) ∧
          ∀ o, frames.getLast? = some o → ¬ (o.frame.masked = 0 ∧ o.payload = [])) := by
  induction frames with
  | nil =>
      refine ⟨[], rfl, fun data hspace ↦ iff_of_true rfl ⟨?_, ?_⟩⟩
      · exact fun o ho ↦ absurd ho List.not_mem_nil
      · exact fun o ho ↦ by cases ho
  | cons o rest ih =>
      have ho := hsize o List.mem_cons_self
      have hrestSize : ∀ o ∈ rest, o.payload.length < 2 ^ 63 :=
        fun a ha ↦ hsize a (List.mem_cons_of_mem _ ha)
      rcases ih (fun a ha ↦ htype a (List.mem_cons_of_mem _ ha)) hrestSize with
        ⟨stream, hstream, hiff⟩
      by_cases hshort : o.payload.length ≤ 0xFFFF
      · have hserialize := o.serialize_wire hshort
        refine ⟨(o.wire hshort).bytes ++ stream, ?_, fun data hspace ↦ ?_⟩
        · rw [encodeAll, hserialize, Option.bind_some, hstream]
          rfl
        · rw [List.length_cons, List.map_cons]
          by_cases hlast : (o.wire hshort).Bare ∧ stream = []
          · -- an empty stream is that of no frames
            have hnil : rest = [] := by
              cases rest with
              | nil => rfl
              | cons a rest =>
                  have ha := hrestSize a List.mem_cons_self
                  exact absurd hlast.2 (encodeAll_cons_ne_nil (by omega) hstream)
            rw [hlast.2, List.append_nil] at hspace ⊢
            rw [decodeAll_bare hlast.1 hspace, hnil]
            refine iff_of_false nofun fun h ↦ ?_
            exact h.2 o rfl ((o.wire_bare_iff hshort).mp hlast.1)
          · have hnext := decodeNext_wire hlast hspace
            rw [o.wire_message hshort (htype o List.mem_cons_self)] at hnext
            have hspace' : data + (o.wire hshort).bytes.length + stream.length < 2 ^ 64 := by
              rw [List.length_append] at hspace
              omega
            rw [decodeAll_succ_iff hnext, hiff _ hspace', List.forall_mem_cons,
              and_iff_right hshort]
            refine and_congr_right fun _ ↦ ?_
            cases rest with
            | nil =>
                cases hstream
                refine iff_of_true (fun a ha ↦ by cases ha) (fun a ha ↦ ?_)
                cases ha
                exact fun hbare ↦ hlast ⟨(o.wire_bare_iff hshort).mpr hbare, rfl⟩
            | cons a rest => rw [List.getLast?_cons_cons]
      · rcases o.serialize_truncated (by omega) (by omega) with ⟨w, after, hw, hlt, hafter⟩
        refine ⟨w.bytes ++ after ++ stream, ?_, fun data hspace ↦ ?_⟩
        · rw [encodeAll, hw, Option.bind_some, hstream]
          rfl
        · rw [List.append_assoc] at hspace ⊢
          refine iff_of_false ?_ fun h ↦ hshort (h.1 o List.mem_cons_self)
          exact decodeAll_truncated hlt (List.append_ne_nil_of_left_ne_nil hafter _) hspace _ _

def greeting : List Outgoing :=
  [⟨⟨0, 0, 0x01020304, Frame.TEXT, 1, 1⟩, [104, 101, 108, 108, 111]⟩,
    ⟨⟨0, 0, 0, Frame.PONG, 1, 0⟩, [1]⟩]

theorem decodeAll_encodeAll_iff_example :
    ∃ stream, encodeAll greeting = some stream ∧ ∀ data, data + stream.length < 2 ^ 64 →
      (decodeAll greeting.length data stream = some (greeting.map Outgoing.message, []) ↔
        (∀ o ∈ greeting, o.payload.length ≤ 0xFFFF) ∧
          ∀ o, greeting.getLast? = some o → ¬ (o.frame.masked = 0 ∧ o.payload = [])) :=
  decodeAll_encodeAll_iff (by decide) (by decide)

-- `generate_frame(PONG, "")` is not recognised at the end of a buffer.
theorem decodeAll_emptyPong :
    encodeAll [⟨⟨0, 0, 0, Frame.PONG, 1, 0⟩, []⟩] = some [0x8a, 0] ∧
      decodeAll 1 4096 [0x8a, 0] = none := by
  decide

end Tob
