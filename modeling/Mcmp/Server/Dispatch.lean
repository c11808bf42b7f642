import Mcmp.Foundation.ByteOrder
import Mcmp.Foundation.WordMemory

/-!
# The dispatch of datagrams

protocol.h and `__protected__mcmch_proccess_dgram` of server.c. A datagram starts with eight bytes
of signature and version and four bytes of operation, both big-endian. The operation has its class
in its top byte and a sub-operation in the other three (`makeOpc`). The dispatcher masks the top
byte but leaves it at the top, and compares it with the classes at the bottom, which only agrees for
the class whose code is zero (`and_classMask_ne_code`): a signed datagram reaches the handler of
acknowledgements or none (`mcmchProccessDgram_eq`).

So the dispatcher inverts the encoding on a datagram exactly when the datagram is not a signed one
of another class (`mcmchProccessDgram_inverts_iff`).
-/

set_option autoImplicit false
set_option relaxedAutoImplicit false

namespace Mcmp.Server.Dispatch

open Foundation.ByteBits Foundation.ByteOrder Foundation.WordMemory

/-! ### The protocol -/

/-- `MCMP_HEADER_SIGV1`: the signature and the version 0. -/
def headerSigv1 : BitVec 64 := 0x4D434D5000000000

/-- The classes of operations `MCMP_OPC_*`. -/
inductive Opc
  | ack
  | rck
  | fragment
  | request
  deriving DecidableEq, Repr

/-- The value of a class in the header. -/
def Opc.code : Opc → BitVec 32
  | ack => 0x00
  | rck => 0x01
  | fragment => 0x02
  | request => 0x03

/-- The bits of an operation that hold its class. -/
def classMask : BitVec 32 := 0xFF000000

/-- The bits of an operation that hold its sub-operation. -/
def subopMask : BitVec 32 := 0x00FFFFFF

/-- `MCMP_MAKE_OPC`. -/
def makeOpc (opc c : BitVec 32) : BitVec 32 := opc <<< 24 ||| c &&& subopMask

/-- `MCMP_ACK_ACCEPT_CONN`. -/
def ackAcceptConn : BitVec 32 := 0x000000

/-- `sizeof(McmpBaseDgram)`. -/
def baseDgramSize : ℕ := 12

/-- `sizeof(McmpAcceptConnectionDgram)`: the base, a public key of 32 bytes and a nonce of 8. -/
def acceptConnectionDgramSize : ℕ := 52

/-! ### The dispatcher -/

/-- `be64toh` of a little-endian machine. -/
def be64toh (word : BitVec 64) : BitVec 64 := byteSwap 8 word

/-- `be32toh` of a little-endian machine. -/
def be32toh (word : BitVec 32) : BitVec 32 := byteSwap 4 word

/-- A call of `__priv__mcmch_handle_ack`, `_rck`, `_fragment` or `_request`: the bytes behind the
pointers to the datagram and to the address, and the `ssize_t`. -/
structure HandlerCall where
  handler : Opc
  subop : BitVec 32
  dgram : ByteMemory
  address : ByteMemory
  size : BitVec 64

/-- The handlers that are called for a datagram. The comparison of the size with a `sizeof` is one
of unsigned numbers. -/
def mcmchProccessDgram (dgram address : ByteMemory) (size : BitVec 64) : List HandlerCall :=
  if size.toNat < baseDgramSize then []
  else if be64toh (chunkAt dgram 0 8) ≠ headerSigv1 then []
  else
    let operation := be32toh (chunkAt dgram 8 4)
    let subop := operation &&& subopMask
    if operation &&& classMask = Opc.ack.code then [⟨.ack, subop, dgram, address, size⟩]
    else if operation &&& classMask = Opc.rck.code then [⟨.rck, subop, dgram, address, size⟩]
    else if operation &&& classMask = Opc.fragment.code then
      [⟨.fragment, subop, dgram, address, size⟩]
    else if operation &&& classMask = Opc.request.code then
      [⟨.request, subop, dgram, address, size⟩]
    else []

/-! ### The encoding of operations -/

theorem getLsbD_subopMask : ∀ i < 32, subopMask.getLsbD i = decide (i < 24) := by
  decide

theorem getLsbD_classMask : ∀ i < 32, classMask.getLsbD i = decide (24 ≤ i) := by
  decide

/-- The codes fit in a byte. -/
theorem Opc.getLsbD_code_high (opc : Opc) : ∀ i < 32, 8 ≤ i → opc.code.getLsbD i = false := by
  cases opc <;> decide

/-- The encoding puts the class above the three low bytes. -/
theorem makeOpc_shift (opc : Opc) (c : BitVec 32) : makeOpc opc.code c >>> 24 = opc.code := by
  apply BitVec.eq_of_getLsbD_eq
  intro i hi
  rw [makeOpc, BitVec.getLsbD_ushiftRight, BitVec.getLsbD_or, BitVec.getLsbD_shiftLeft,
    BitVec.getLsbD_and]
  by_cases hbyte : i < 8
  · rw [getLsbD_subopMask _ (by omega)]
    have hinside : 24 + i < 32 := by omega
    have habove : ¬ 24 + i < 24 := by omega
    simp [hinside, habove]
  · have houtside : 32 ≤ 24 + i := by omega
    rw [opc.getLsbD_code_high i hi (by omega), BitVec.getLsbD_of_ge c _ houtside]
    simp [houtside]

/-- The encoding keeps the three low bytes. -/
theorem makeOpc_and_subopMask (opc : BitVec 32) {c : BitVec 32} (hc : c.toNat < 2 ^ 24) :
    makeOpc opc c &&& subopMask = c := by
  apply BitVec.eq_of_getLsbD_eq
  intro i hi
  rw [makeOpc, BitVec.getLsbD_and, BitVec.getLsbD_or, BitVec.getLsbD_shiftLeft, BitVec.getLsbD_and,
    getLsbD_subopMask i hi]
  by_cases hlow : i < 24
  · simp [hlow]
  · have hhigh : c.getLsbD i = false :=
      Nat.testBit_lt_two_pow (lt_of_lt_of_le hc (Nat.pow_le_pow_right (by omega) (by omega)))
    simp [hlow, hhigh]

theorem toNat_and_subopMask_lt (operation : BitVec 32) :
    (operation &&& subopMask).toNat < 2 ^ 24 := by
  rw [BitVec.toNat_and]
  exact Nat.and_lt_two_pow _ (by decide)

/-- Every operation is made of its top byte and its three low bytes. -/
theorem makeOpc_class_subop (operation : BitVec 32) :
    makeOpc (operation >>> 24) (operation &&& subopMask) = operation := by
  apply BitVec.eq_of_getLsbD_eq
  intro i hi
  rw [makeOpc, BitVec.getLsbD_or, BitVec.getLsbD_shiftLeft, BitVec.getLsbD_and, BitVec.getLsbD_and,
    BitVec.getLsbD_ushiftRight, getLsbD_subopMask i hi]
  by_cases hlow : i < 24
  · simp [hlow]
  · have hplace : 24 + (i - 24) = i := by omega
    simp [hlow, hi, hplace]

/-! ### The classes that the switch sees -/

/-- The operation with its three low bytes cleared is no class but the one with code zero. -/
theorem and_classMask_ne_code (operation : BitVec 32) {opc : Opc} (hopc : opc ≠ .ack) :
    operation &&& classMask ≠ opc.code := by
  intro heq
  have hmasks : classMask &&& subopMask = 0#32 := by decide
  have hzero : opc.code &&& subopMask = 0#32 := by
    rw [← heq, BitVec.and_assoc, hmasks, BitVec.and_zero]
  cases opc
  · exact hopc rfl
  all_goals exact absurd hzero (by decide)

/-- It is the class with code zero when the top byte is zero. -/
theorem and_classMask_eq_ack_iff (operation : BitVec 32) :
    operation &&& classMask = Opc.ack.code ↔ operation >>> 24 = Opc.ack.code := by
  constructor
  · intro hmasked
    apply BitVec.eq_of_getLsbD_eq
    intro i hi
    have hbit := congrArg (fun word ↦ word.getLsbD (24 + i)) hmasked
    rw [BitVec.getLsbD_ushiftRight]
    by_cases hinside : 24 + i < 32
    · simpa [Opc.code, getLsbD_classMask _ hinside] using hbit
    · simp [Opc.code, BitVec.getLsbD_of_ge operation (24 + i) (by omega)]
  · intro hshift
    apply BitVec.eq_of_getLsbD_eq
    intro i hi
    rw [BitVec.getLsbD_and, getLsbD_classMask i hi]
    by_cases hhigh : 24 ≤ i
    · have hbit := congrArg (fun word ↦ word.getLsbD (i - 24)) hshift
      have hplace : 24 + (i - 24) = i := by omega
      have hclear : operation.getLsbD i = false := by simpa [Opc.code, hplace] using hbit
      simp [Opc.code, hclear]
    · simp [Opc.code, hhigh]

/-! ### What the dispatcher does -/

/-- The datagram starts with the signature and the version 0. -/
def Signed (dgram : ByteMemory) : Prop := BigEndianAt dgram 0 8 headerSigv1

/-- The operation of a datagram. -/
def operationOf (dgram : ByteMemory) : BitVec 32 := be32toh (chunkAt dgram 8 4)

instance (dgram : ByteMemory) : Decidable (Signed dgram) :=
  inferInstanceAs (Decidable (BigEndianAt dgram 0 8 headerSigv1))

theorem be64toh_eq_headerSigv1_iff (dgram : ByteMemory) :
    be64toh (chunkAt dgram 0 8) = headerSigv1 ↔ Signed dgram :=
  byteSwap_chunkAt_eq_iff dgram 0 8 headerSigv1

theorem operationOf_eq_iff (dgram : ByteMemory) (operation : BitVec 32) :
    operationOf dgram = operation ↔ BigEndianAt dgram 8 4 operation :=
  byteSwap_chunkAt_eq_iff dgram 8 4 operation

/-- The class byte of a datagram is the top byte of its operation. -/
theorem operationOf_shift_eq_code_iff (dgram : ByteMemory) (opc : Opc) :
    operationOf dgram >>> 24 = opc.code ↔ dgram 8 = opc.code.setWidth 8 := by
  have hclass : dgram 8 = (operationOf dgram >>> 24).setWidth 8 :=
    (operationOf_eq_iff dgram _).mp rfl 0 (by decide)
  constructor
  · intro hshift
    rw [hclass, hshift]
  · intro hbyte
    rw [hclass] at hbyte
    apply BitVec.eq_of_getLsbD_eq
    intro i hi
    by_cases hlow : i < 8
    · have hbit := congrArg (fun byte ↦ byte.getLsbD i) hbyte
      simpa [hlow] using hbit
    · rw [opc.getLsbD_code_high i hi (by omega), BitVec.getLsbD_ushiftRight,
        BitVec.getLsbD_of_ge _ _ (by omega)]

/-- A datagram reaches the handler of acknowledgements when it is long enough and signed and its
class byte is zero, and no handler otherwise. -/
theorem mcmchProccessDgram_eq (dgram address : ByteMemory) (size : BitVec 64) :
    mcmchProccessDgram dgram address size =
      if baseDgramSize ≤ size.toNat ∧ Signed dgram ∧ dgram 8 = 0 then
        [⟨.ack, operationOf dgram &&& subopMask, dgram, address, size⟩]
      else [] := by
  have hack : operationOf dgram &&& classMask = Opc.ack.code ↔ dgram 8 = 0 :=
    (and_classMask_eq_ack_iff _).trans (operationOf_shift_eq_code_iff dgram .ack)
  rw [mcmchProccessDgram]
  by_cases hsize : size.toNat < baseDgramSize
  · rw [if_pos hsize, if_neg (by omega)]
  · rw [if_neg hsize]
    by_cases hsigned : Signed dgram
    · rw [if_neg (not_not.mpr ((be64toh_eq_headerSigv1_iff dgram).mpr hsigned))]
      show (if operationOf dgram &&& classMask = _ then _ else
        if operationOf dgram &&& classMask = _ then _ else
        if operationOf dgram &&& classMask = _ then _ else
        if operationOf dgram &&& classMask = _ then _ else _) = _
      rw [if_neg (and_classMask_ne_code _ (by decide : Opc.rck ≠ .ack)),
        if_neg (and_classMask_ne_code _ (by decide : Opc.fragment ≠ .ack)),
        if_neg (and_classMask_ne_code _ (by decide : Opc.request ≠ .ack))]
      by_cases hclass : dgram 8 = 0
      · rw [if_pos (hack.mpr hclass), if_pos ⟨not_lt.mp hsize, hsigned, hclass⟩]
        rfl
      · rw [if_neg (mt hack.mp hclass), if_neg (fun h ↦ hclass h.2.2)]
    · rw [if_pos (mt (be64toh_eq_headerSigv1_iff dgram).mp hsigned),
        if_neg (fun h ↦ hsigned h.2.1)]

/-! ### The dispatcher and the encoding -/

/-- The dispatcher inverts the encoding on a datagram: a signed datagram with an encoded operation
makes one call, of the handler of its class with its sub-operation, and a datagram with another
signature or class byte makes none. -/
structure Inverts (dgram address : ByteMemory) (size : BitVec 64) : Prop where
  dispatched : ∀ (opc : Opc) (c : BitVec 32), c.toNat < 2 ^ 24 → Signed dgram →
    BigEndianAt dgram 8 4 (makeOpc opc.code c) →
    mcmchProccessDgram dgram address size = [⟨opc, c, dgram, address, size⟩]
  dropped : (¬ Signed dgram ∨ ∀ opc : Opc, dgram 8 ≠ opc.code.setWidth 8) →
    mcmchProccessDgram dgram address size = []

/-- A datagram of at least twelve bytes is dispatched as it was encoded exactly when it is not a
signed one of another class than acknowledgements. -/
theorem mcmchProccessDgram_inverts_iff {dgram address : ByteMemory} {size : BitVec 64}
    (hsize : 12 ≤ size.toInt) :
    Inverts dgram address size ↔
      ¬ (Signed dgram ∧ ∃ opc : Opc, opc ≠ .ack ∧ dgram 8 = opc.code.setWidth 8) := by
  have hlong : baseDgramSize ≤ size.toNat := by
    have hbound := size.isLt
    rw [BitVec.toInt_eq_toNat_cond] at hsize
    rw [baseDgramSize]
    split at hsize <;> omega
  have hcalls := mcmchProccessDgram_eq dgram address size
  constructor
  · rintro hinverts ⟨hsigned, opc, hopc, hclass⟩
    have hshift : operationOf dgram >>> 24 = opc.code :=
      (operationOf_shift_eq_code_iff dgram opc).mpr hclass
    have hencoded : BigEndianAt dgram 8 4 (makeOpc opc.code (operationOf dgram &&& subopMask)) := by
      rw [← operationOf_eq_iff, ← hshift, makeOpc_class_subop]
    have hcall := hinverts.dispatched opc _ (toNat_and_subopMask_lt _) hsigned hencoded
    have hnonzero : dgram 8 ≠ 0 := by
      rw [hclass]
      cases opc
      · exact absurd rfl hopc
      all_goals decide
    rw [hcalls, if_neg (fun h ↦ hnonzero h.2.2)] at hcall
    exact List.cons_ne_nil _ _ hcall.symm
  · intro hclass
    constructor
    · intro opc c hc hsigned hencoded
      have hoperation : operationOf dgram = makeOpc opc.code c :=
        (operationOf_eq_iff dgram _).mpr hencoded
      have hbyte : dgram 8 = opc.code.setWidth 8 := by
        rw [← operationOf_shift_eq_code_iff, hoperation, makeOpc_shift]
      obtain rfl : opc = .ack := by
        by_contra hopc
        exact hclass ⟨hsigned, opc, hopc, hbyte⟩
      rw [hcalls, if_pos ⟨hlong, hsigned, hbyte⟩, hoperation, makeOpc_and_subopMask _ hc]
    · intro hother
      rw [hcalls, if_neg]
      rintro ⟨-, hsigned, hzero⟩
      rcases hother with hunsigned | hclass
      · exact hunsigned hsigned
      · exact hclass .ack hzero

/-- The buffer that holds a datagram and is zero behind it. -/
def bufferOf (datagram : List (BitVec 8)) : ByteMemory := storeBytes (fun _ ↦ 0#8) 0 datagram

/-- The acknowledgement whose sub-operation is seven is dispatched as it was encoded. -/
theorem mcmchProccessDgram_inverts_iff_ack :
    mcmchProccessDgram (bufferOf [0x4D, 0x43, 0x4D, 0x50, 0, 0, 0, 0, 0, 0, 0, 7]) (bufferOf [])
        12 =
      [⟨.ack, 7, bufferOf [0x4D, 0x43, 0x4D, 0x50, 0, 0, 0, 0, 0, 0, 0, 7], bufferOf [], 12⟩] := by
  have hclass : ∀ opc : Opc, opc ≠ .ack →
      bufferOf [0x4D, 0x43, 0x4D, 0x50, 0, 0, 0, 0, 0, 0, 0, 7] 8 ≠ opc.code.setWidth 8 := by
    intro opc hopc
    cases opc
    · exact absurd rfl hopc
    all_goals decide
  have hsize : 12 ≤ (12 : BitVec 64).toInt := by decide
  have hinverts : Inverts (bufferOf [0x4D, 0x43, 0x4D, 0x50, 0, 0, 0, 0, 0, 0, 0, 7]) (bufferOf [])
      12 := by
    rw [mcmchProccessDgram_inverts_iff hsize]
    rintro ⟨-, opc, hopc, hbyte⟩
    exact hclass opc hopc hbyte
  exact hinverts.dispatched .ack 7 (by decide) (by decide) (by decide)

/-- A signed request is encoded with the class byte 3 and reaches no handler. -/
theorem not_inverts_request :
    Signed (bufferOf [0x4D, 0x43, 0x4D, 0x50, 0, 0, 0, 0, 3, 0, 0, 0]) ∧
      BigEndianAt (bufferOf [0x4D, 0x43, 0x4D, 0x50, 0, 0, 0, 0, 3, 0, 0, 0]) 8 4
        (makeOpc Opc.request.code 0) ∧
      ¬ Inverts (bufferOf [0x4D, 0x43, 0x4D, 0x50, 0, 0, 0, 0, 3, 0, 0, 0]) (bufferOf []) 12 := by
  have hsigned : Signed (bufferOf [0x4D, 0x43, 0x4D, 0x50, 0, 0, 0, 0, 3, 0, 0, 0]) := by decide
  have hencoded : BigEndianAt (bufferOf [0x4D, 0x43, 0x4D, 0x50, 0, 0, 0, 0, 3, 0, 0, 0]) 8 4
      (makeOpc Opc.request.code 0) := by decide
  refine ⟨hsigned, hencoded, fun hinverts ↦ ?_⟩
  have hcall := hinverts.dispatched .request 0 (by decide) hsigned hencoded
  rw [mcmchProccessDgram_eq, if_neg (by decide)] at hcall
  exact List.cons_ne_nil _ _ hcall.symm

end Mcmp.Server.Dispatch
