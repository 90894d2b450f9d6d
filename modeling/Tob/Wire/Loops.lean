import Tob.Wire.Format

/-!
# The masking loops in memory

The two loops as they run over a buffer, on an index in a 64-bit register.  They refine
`maskPayload`, and leave the rest of the buffer alone.
-/

namespace Tob

/-- `*(uint32_t *)(mem + a) ^= word`. -/
def xorWord (mem : List UInt8) (a : Nat) (word : UInt32) : Option (List UInt8) :=
  match readAt mem a 4 with
  | some [b₀, b₁, b₂, b₃] => writeAt mem a (leBytes (leWord b₀ b₁ b₂ b₃ ^^^ word))
  | _ => none

/-- `*(uint8_t *)(mem + a) ^= byte`. -/
def xorByte (mem : List UInt8) (a : Nat) (byte : UInt8) : Option (List UInt8) :=
  mem[a]?.map fun b ↦ mem.set a (b ^^^ byte)

-- A loop is `none` where it leaves the buffer, or does not end within `fuel` turns.
def wordLoop (maskKey : UInt32) (offset length : Nat) :
    Nat → Nat → List UInt8 → Option (Nat × List UInt8)
  | 0, _, _ => none
  | fuel + 1, i, mem =>
      if Frame.wrap (i + 4) < length then
        (xorWord mem (offset + i) maskKey).bind fun mem ↦
          wordLoop maskKey offset length fuel (Frame.wrap (i + 4)) mem
      else some (i, mem)

def byteLoop (maskKey : UInt32) (offset length : Nat) :
    Nat → Nat → List UInt8 → Option (List UInt8)
  | 0, _, _ => none
  | fuel + 1, i, mem =>
      if i < length then
        (xorByte mem (offset + i) (leByte maskKey (i % 4))).bind fun mem ↦
          byteLoop maskKey offset length fuel (Frame.wrap (i + 1)) mem
      else some mem

/-- Both loops over the `length` bytes at `offset`. -/
def maskLoops (maskKey : UInt32) (offset length fuel : Nat) (mem : List UInt8) :
    Option (List UInt8) :=
  (wordLoop maskKey offset length fuel 0 mem).bind fun s ↦
    byteLoop maskKey offset length fuel s.1 s.2

theorem xorWord_append (before after : List UInt8) (b₀ b₁ b₂ b₃ : UInt8) (word : UInt32) :
    xorWord (before ++ [b₀, b₁, b₂, b₃] ++ after) before.length word =
      some (before ++ leBytes (leWord b₀ b₁ b₂ b₃ ^^^ word) ++ after) := by
  have hread : readAt (before ++ [b₀, b₁, b₂, b₃] ++ after) before.length 4 =
      some [b₀, b₁, b₂, b₃] := readAt_append before [b₀, b₁, b₂, b₃] after
  rw [xorWord, hread]
  exact writeAt_append before after rfl

theorem xorByte_append (before after : List UInt8) (b byte : UInt8) :
    xorByte (before ++ b :: after) before.length byte =
      some (before ++ (b ^^^ byte) :: after) := by
  have hget : (before ++ b :: after)[before.length]? = some b := by
    rw [List.getElem?_append_right (le_refl _), Nat.sub_self]
    rfl
  rw [xorByte, hget, Option.map_some, List.set_append_right _ _ (le_refl _), Nat.sub_self,
    List.set_cons_zero]

/-- The byte loop from index `i` on, with `done` in front of the bytes that are left. -/
theorem byteLoop_eq (maskKey : UInt32) {offset length fuel i : Nat} {done todo : List UInt8}
    (after : List UInt8) (hdone : done.length = offset + i) (hlength : length = i + todo.length)
    (hsize : length < 2 ^ 63) (hfuel : todo.length < fuel) :
    byteLoop maskKey offset length fuel i (done ++ todo ++ after) =
      some (done ++ maskTail maskKey i todo ++ after) := by
  induction todo generalizing fuel i done with
  | nil =>
      obtain ⟨fuel, rfl⟩ := Nat.exists_eq_add_one.mpr (Nat.zero_lt_of_lt hfuel)
      rw [byteLoop, if_neg (by rw [hlength, List.length_nil]; omega), maskTail]
  | cons b todo ih =>
      obtain ⟨fuel, rfl⟩ := Nat.exists_eq_add_one.mpr (Nat.zero_lt_of_lt hfuel)
      rw [List.length_cons] at hlength hfuel
      -- the byte in front moves to what is done
      have hmove (c : UInt8) (rest : List UInt8) :
          done ++ c :: rest ++ after = done ++ [c] ++ rest ++ after := by
        rw [List.append_assoc done [c], List.singleton_append]
      have hxor : xorByte (done ++ b :: todo ++ after) (offset + i) (leByte maskKey (i % 4)) =
          some (done ++ [b ^^^ leByte maskKey (i % 4)] ++ todo ++ after) := by
        rw [← hmove, List.append_assoc, List.append_assoc, ← hdone]
        exact xorByte_append done (todo ++ after) b _
      rw [byteLoop, if_pos (by omega), hxor, Option.bind_some, Frame.wrap_eq (by omega),
        ih (by rw [List.length_append, hdone]; rfl) (by omega) (by omega), maskTail, hmove]

/-- Both loops from index `i` on: the word loop leaves the byte loop at most four bytes. -/
theorem wordLoop_eq (maskKey : UInt32) {offset length fuel turns i : Nat} {done todo : List UInt8}
    (after : List UInt8) (hdone : done.length = offset + i) (hlength : length = i + todo.length)
    (hsize : length < 2 ^ 63) (hfuel : todo.length < fuel) (hturns : todo.length < turns) :
    ((wordLoop maskKey offset length fuel i (done ++ todo ++ after)).bind fun s ↦
      byteLoop maskKey offset length turns s.1 s.2) =
      some (done ++ maskWords maskKey i todo ++ after) := by
  induction i, todo using maskWords.induct generalizing fuel done with
  | case1 i b₀ b₁ b₂ b₃ b₄ rest ih =>
      obtain ⟨fuel, rfl⟩ := Nat.exists_eq_add_one.mpr (Nat.zero_lt_of_lt hfuel)
      simp only [List.length_cons] at hlength hfuel hturns ih
      have hxor : xorWord (done ++ (b₀ :: b₁ :: b₂ :: b₃ :: b₄ :: rest) ++ after) (offset + i)
          maskKey = some (done ++ leBytes (leWord b₀ b₁ b₂ b₃ ^^^ maskKey) ++ (b₄ :: rest) ++
            after) := by
        have hword := xorWord_append done (b₄ :: rest ++ after) b₀ b₁ b₂ b₃ maskKey
        simp only [List.append_assoc, List.cons_append, List.nil_append] at hword ⊢
        rw [← hdone, hword]
      rw [wordLoop, Frame.wrap_eq (by omega), if_pos (by omega), hxor, Option.bind_some,
        ih (by rw [List.length_append, hdone]; rfl) (by omega) (by omega) (by omega), maskWords,
        List.append_assoc done]
  | case2 i rest hshort =>
      obtain ⟨fuel, rfl⟩ := Nat.exists_eq_add_one.mpr (Nat.zero_lt_of_lt hfuel)
      have hlast : rest.length ≤ 4 := by
        rcases rest with _ | ⟨b₀, _ | ⟨b₁, _ | ⟨b₂, _ | ⟨b₃, _ | ⟨b₄, rest⟩⟩⟩⟩⟩
        case cons.cons.cons.cons.cons => exact (hshort b₀ b₁ b₂ b₃ b₄ rest rfl).elim
        all_goals simp
      rw [wordLoop, Frame.wrap_eq (by omega), if_neg (by omega), Option.bind_some, maskWords,
        byteLoop_eq maskKey after hdone hlength hsize hturns]
      exact hshort

/-- The loops in memory refine `maskPayload`, for any number of turns that is large enough. -/
theorem maskLoops_eq (maskKey : UInt32) (before payload after : List UInt8) {fuel : Nat}
    (hsize : payload.length < 2 ^ 63) (hfuel : payload.length < fuel) :
    maskLoops maskKey before.length payload.length fuel (before ++ payload ++ after) =
      some (before ++ maskPayload maskKey payload ++ after) :=
  wordLoop_eq maskKey after rfl (Nat.zero_add _).symm hsize hfuel hfuel

namespace Frame

/-- The loops mask a payload byte by byte, wherever it is in memory; `serialize` returns what they
leave, and with the key in the header they restore the payload in `deserialize`. -/
structure LoopsMask (maskKey : UInt32) (payload : List UInt8) : Prop where
  mask : ∀ (before after : List UInt8) (fuel : Nat), payload.length < fuel →
    maskLoops maskKey before.length payload.length fuel (before ++ payload ++ after) =
      some (before ++ xorWith (fun i ↦ leByte maskKey (i % 4)) payload ++ after)
  serialize : ∀ (frame : Frame) (fuel : Nat), frame.masked ≠ 0 → frame.maskKey = maskKey →
    payload.length < fuel → ∃ start bytes, start.length = 2 + (lengthField payload.length).2 ∧
      let header := start ++ beBytes 4 maskKey.toNat
      serialize frame payload = some ({ frame with payloadLength := payload.length }, bytes) ∧
        maskLoops maskKey header.length payload.length fuel (header ++ payload) = some bytes
  unmask : ∀ (start after : List UInt8) (fuel : Nat), payload.length < fuel →
    let header := start ++ beBytes 4 maskKey.toNat
    let mem := header ++ xorWith (fun i ↦ leByte maskKey (i % 4)) payload ++ after
    ∃ key, readAt mem start.length 4 = some key ∧
      maskLoops (UInt32.ofNat (beNat key)) header.length payload.length fuel mem =
        some (header ++ payload ++ after)
  deserialize : ∀ (frame : Frame) (data END : Nat) (start after : List UInt8),
    frame.masked ≠ 0 → frame.payloadLength = payload.length →
    wrap (data + start.length + payload.length + 4) ≤ END →
    let header := start ++ beBytes 4 maskKey.toNat
    let mem := header ++ xorWith (fun i ↦ leByte maskKey (i % 4)) payload ++ after
    ∃ d, deserializePayload frame data mem END start.length = some d ∧
      d.frame.maskKey = maskKey ∧ d.mem = header ++ payload ++ after

variable (maskKey : UInt32) {payload : List UInt8}

theorem serialize_loops (frame : Frame) (hmasked : frame.masked ≠ 0) {fuel : Nat}
    (hsize : payload.length < 2 ^ 63) (hfuel : payload.length < fuel) :
    ∃ start bytes, start.length = 2 + (lengthField payload.length).2 ∧
      let header := start ++ beBytes 4 frame.maskKey.toNat
      serialize frame payload = some ({ frame with payloadLength := payload.length }, bytes) ∧
        maskLoops frame.maskKey header.length payload.length fuel (header ++ payload) =
          some bytes := by
  have hserialize := serialize_eq frame (show payload.length + 14 < 2 ^ 64 by omega)
  have hstart : (frame.startBytes (lengthField payload.length).1 ++
      lengthBytes payload.length).length = 2 + (lengthField payload.length).2 := by
    rw [List.length_append, lengthField_snd]
    rfl
  generalize frame.startBytes (lengthField payload.length).1 ++ lengthBytes payload.length = start
    at hserialize hstart
  have hloops := maskLoops_eq frame.maskKey (start ++ beBytes 4 frame.maskKey.toNat) payload []
    hsize hfuel
  rw [keyBytes, if_pos hmasked, body, if_pos hmasked] at hserialize
  rw [List.append_nil, List.append_nil] at hloops
  exact ⟨start, _, hstart, hserialize, hloops⟩

theorem unmask_loops (start after : List UInt8) {fuel : Nat} (hsize : payload.length < 2 ^ 63)
    (hfuel : payload.length < fuel) :
    let header := start ++ beBytes 4 maskKey.toNat
    let mem := header ++ maskPayload maskKey payload ++ after
    ∃ key, readAt mem start.length 4 = some key ∧
      maskLoops (UInt32.ofNat (beNat key)) header.length payload.length fuel mem =
        some (header ++ payload ++ after) := by
  intro header mem
  have hkey := readAt_append start (beBytes 4 maskKey.toNat) (maskPayload maskKey payload ++ after)
  rw [length_beBytes, ← List.append_assoc] at hkey
  have hlength := length_maskPayload maskKey payload
  have hloops := maskLoops_eq maskKey header (maskPayload maskKey payload) after
    (show _ < 2 ^ 63 by rw [hlength]; exact hsize) (show _ < fuel by rw [hlength]; exact hfuel)
  rw [maskPayload_maskPayload, hlength] at hloops
  refine ⟨_, hkey, ?_⟩
  rw [ofNat_beNat_beBytes]
  exact hloops

/-- Over every length and every key the loops are byte-wise masking, and they undo themselves. -/
theorem masking_loops (maskKey : UInt32) (payload : List UInt8) (hsize : payload.length < 2 ^ 63) :
    LoopsMask maskKey payload := by
  have hmask := maskPayload_eq_xorWith maskKey payload
  refine ⟨?_, ?_, ?_, ?_⟩
  · intro before after fuel hfuel
    rw [← hmask]
    exact maskLoops_eq maskKey before payload after hsize hfuel
  · rintro frame fuel hmasked rfl hfuel
    exact serialize_loops frame hmasked hsize hfuel
  · intro start after fuel hfuel
    rw [← hmask]
    exact unmask_loops maskKey start after hsize hfuel
  · intro frame data END start after hmasked hlength hend
    rw [← length_maskPayload maskKey payload] at hlength hend
    have hdecode := deserializePayload_key maskKey start after hmasked hlength hend
    rw [maskPayload_maskPayload] at hdecode
    rw [← hmask]
    exact ⟨_, hdecode, rfl, rfl⟩

theorem masking_loops_example : LoopsMask 0x01020304 [0x61, 0x62, 0x63, 0x64, 0x65, 0x66] :=
  masking_loops 0x01020304 _ (by decide)

end Frame

end Tob
