import Mcmp.Server.Dispatch

/-!
# The update of a server

`mcmchServerUpdate` of server.c, with the handlers behind the dispatcher. One iteration receives a
datagram into the buffer that all iterations share and processes the buffer. A failed receive leaves
the buffer as it is and returns `-1`; both checks of the size compare it with a `sizeof`, as an
unsigned number, so they let it through and the buffer is processed again.

What an iteration does depends on the bytes that were written last to the front of the buffer
(`bufferAfter_eq`, `acceptCalls_eq`). So an update judges its datagrams by the bytes received for
them exactly when, before each failed receive, some byte of the header was overwritten with one that
is not that of a connection request (`mcmchServerUpdate_judged_iff`).
-/

set_option autoImplicit false
set_option relaxedAutoImplicit false

namespace Mcmp.Server.Update

open Foundation.ByteBits Foundation.ByteOrder Foundation.WordMemory Dispatch

/-! ### The handlers -/

/-- A call of `__protected__mcmch_ack_accept_client`: the bytes behind its two pointers. -/
structure AcceptCall where
  address : ByteMemory
  dgram : ByteMemory

/-- The bytes of the field `pkey` of `McmpAcceptConnectionDgram`. -/
def AcceptCall.pkey (call : AcceptCall) : List (BitVec 8) :=
  (List.range 32).map fun i ↦ call.dgram (12 + i)

/-- The bytes of the field `nonce` of `McmpAcceptConnectionDgram`. -/
def AcceptCall.nonce (call : AcceptCall) : List (BitVec 8) :=
  (List.range 8).map fun i ↦ call.dgram (44 + i)

/-- What a call reads of the request. -/
def AcceptCall.request (call : AcceptCall) : List (BitVec 8) × List (BitVec 8) :=
  (call.pkey, call.nonce)

/-- `__priv__mcmch_handle_ack`, with the same unsigned comparison of the size. -/
def mcmchHandleAck (subop : BitVec 32) (dgram address : ByteMemory) (size : BitVec 64) :
    List AcceptCall :=
  if subop = ackAcceptConn then
    if size.toNat < acceptConnectionDgramSize then [] else [⟨address, dgram⟩]
  else []

/-- `__priv__mcmch_handle_rck`, which is empty. -/
def mcmchHandleRck (_ : BitVec 32) (_ _ : ByteMemory) (_ : BitVec 64) : List AcceptCall := []

/-- `__priv__mcmch_handle_fragment`, which is empty. -/
def mcmchHandleFragment (_ : BitVec 32) (_ _ : ByteMemory) (_ : BitVec 64) : List AcceptCall := []

/-- `__priv__mcmch_handle_request`, which is empty. -/
def mcmchHandleRequest (_ : BitVec 32) (_ _ : ByteMemory) (_ : BitVec 64) : List AcceptCall := []

/-- The body of the handler that is called. -/
def HandlerCall.run : HandlerCall → List AcceptCall
  | ⟨.ack, subop, dgram, address, size⟩ => mcmchHandleAck subop dgram address size
  | ⟨.rck, subop, dgram, address, size⟩ => mcmchHandleRck subop dgram address size
  | ⟨.fragment, subop, dgram, address, size⟩ => mcmchHandleFragment subop dgram address size
  | ⟨.request, subop, dgram, address, size⟩ => mcmchHandleRequest subop dgram address size

/-! ### The loop -/

/-- `MCMP_DGRAM_MAXSIZE`, the size of the buffer. -/
def dgramMaxsize : ℕ := 1088

/-- A datagram as `recvfrom` stores it: at most as many bytes as the buffer has, and the bytes of
the address of its sender. -/
structure Datagram where
  bytes : List (BitVec 8)
  address : List (BitVec 8)
  fits : bytes.length ≤ dgramMaxsize

/-- The outcome of a `recvfrom`. -/
inductive Receive
  | failed
  | received (datagram : Datagram)

/-- The value that `recvfrom` returns. -/
def Receive.size : Receive → BitVec 64
  | failed => -1
  | received datagram => BitVec.ofNat 64 datagram.bytes.length

/-- The buffer after `recvfrom`. -/
def Receive.buffer (dgram : ByteMemory) : Receive → ByteMemory
  | failed => dgram
  | received datagram => storeBytes dgram 0 datagram.bytes

/-- The address after `recvfrom`. -/
def Receive.sender (address : ByteMemory) : Receive → ByteMemory
  | failed => address
  | received datagram => storeBytes address 0 datagram.address

/-- What processing the buffer calls. -/
def acceptCalls (dgram address : ByteMemory) (size : BitVec 64) : List AcceptCall :=
  (mcmchProccessDgram dgram address size).flatMap HandlerCall.run

/-- The calls that each iteration of an update makes, from the content of the buffer and of the
address. -/
def mcmchServerUpdate (dgram address : ByteMemory) : List Receive → List (List AcceptCall)
  | [] => []
  | outcome :: outcomes =>
    let dgram := outcome.buffer dgram
    let address := outcome.sender address
    acceptCalls dgram address outcome.size :: mcmchServerUpdate dgram address outcomes

/-! ### The buffer along the loop -/

/-- The buffer after some receives. -/
def bufferAfter (dgram : ByteMemory) (outcomes : List Receive) : ByteMemory :=
  outcomes.foldl Receive.buffer dgram

/-- The address after some receives. -/
def addressAfter (address : ByteMemory) (outcomes : List Receive) : ByteMemory :=
  outcomes.foldl Receive.sender address

/-- The byte that a receive writes to a place of the buffer. -/
def Receive.written (k : ℕ) : Receive → Option (BitVec 8)
  | failed => none
  | received datagram => datagram.bytes[k]?

/-- The byte that some receives wrote last to a place of the buffer. -/
def lastWritten (k : ℕ) : List Receive → Option (BitVec 8)
  | [] => none
  | outcome :: outcomes => (lastWritten k outcomes).or (outcome.written k)

theorem Receive.buffer_apply (dgram : ByteMemory) (outcome : Receive) (k : ℕ) :
    outcome.buffer dgram k = (outcome.written k).getD (dgram k) := by
  cases outcome with
  | failed => rfl
  | received datagram =>
    rw [buffer, written, storeBytes]
    by_cases hk : k < datagram.bytes.length
    · rw [overwrite_inside (Nat.zero_le k) (by omega)]
      simp [hk]
    · rw [overwrite_outside (Or.inr (by omega))]
      simp [hk]

/-- A byte of the buffer is the one that was written last, or the first one. -/
theorem bufferAfter_eq (dgram : ByteMemory) (outcomes : List Receive) (k : ℕ) :
    bufferAfter dgram outcomes k = (lastWritten k outcomes).getD (dgram k) := by
  induction outcomes generalizing dgram with
  | nil => rfl
  | cons outcome outcomes ih =>
    show bufferAfter (outcome.buffer dgram) outcomes k = _
    rw [ih, outcome.buffer_apply, lastWritten]
    cases lastWritten k outcomes <;> rfl

/-- The calls of an iteration, by the receives before it. -/
theorem mcmchServerUpdate_getElem? (dgram address : ByteMemory) (before after : List Receive)
    (outcome : Receive) :
    (mcmchServerUpdate dgram address (before ++ outcome :: after))[before.length]? =
      some (acceptCalls (outcome.buffer (bufferAfter dgram before))
        (outcome.sender (addressAfter address before)) outcome.size) := by
  induction before generalizing dgram address with
  | nil => rfl
  | cons earlier before ih => exact ih (earlier.buffer dgram) (earlier.sender address)

/-! ### Connection requests -/

/-- The base of the datagram of a connection request: the signature, the version 0, and the
operation for the class of acknowledgements and its sub-operation. -/
def requestHeader : List (BitVec 8) := [0x4D, 0x43, 0x4D, 0x50, 0, 0, 0, 0, 0, 0, 0, 0]

/-- The buffer starts with the base of a connection request. -/
def IsRequest (dgram : ByteMemory) : Prop := ∀ k < baseDgramSize, dgram k = requestHeader.getD k 0

instance (dgram : ByteMemory) : Decidable (IsRequest dgram) :=
  inferInstanceAs (Decidable (∀ k < baseDgramSize, _))

/-- The dispatcher and the handler of acknowledgements check the twelve bytes of the base. -/
theorem isRequest_iff (dgram : ByteMemory) :
    IsRequest dgram ↔
      Signed dgram ∧ dgram 8 = 0 ∧ operationOf dgram &&& subopMask = ackAcceptConn := by
  have hsignature : ∀ i < 8, requestHeader.getD i 0 =
      (headerSigv1 >>> (8 * (8 - 1 - i))).setWidth 8 := by decide
  have hoperation : ∀ i < 4, requestHeader.getD (8 + i) 0 =
      ((0 : BitVec 32) >>> (8 * (4 - 1 - i))).setWidth 8 := by decide
  have hbase : IsRequest dgram ↔ Signed dgram ∧ operationOf dgram = 0 := by
    rw [operationOf_eq_iff]
    constructor
    · intro hrequest
      constructor
      · intro i hi
        rw [← hsignature i hi, Nat.zero_add]
        exact hrequest i (by simp only [baseDgramSize]; omega)
      · intro i hi
        rw [← hoperation i hi]
        exact hrequest (8 + i) (by simp only [baseDgramSize]; omega)
    · rintro ⟨hsigned, hzero⟩ k hk
      by_cases hlow : k < 8
      · rw [hsignature k hlow, ← hsigned k hlow, Nat.zero_add]
      · obtain ⟨i, rfl⟩ := Nat.exists_eq_add_of_le (not_lt.mp hlow)
        have hi : i < 4 := by simp only [baseDgramSize] at hk; omega
        rw [hoperation i hi, ← hzero i hi]
  have hclass : dgram 8 = 0 ↔ operationOf dgram >>> 24 = 0 :=
    (operationOf_shift_eq_code_iff dgram .ack).symm
  rw [hbase, hclass, and_congr_right_iff]
  intro _
  constructor
  · intro hzero
    rw [hzero]
    decide
  · rintro ⟨htop, hsubop⟩
    rw [← makeOpc_class_subop (operationOf dgram), htop, hsubop]
    decide

/-- Processing the buffer accepts a client when the size passes the checks and the buffer holds a
connection request. -/
theorem acceptCalls_eq (dgram address : ByteMemory) (size : BitVec 64) :
    acceptCalls dgram address size =
      if acceptConnectionDgramSize ≤ size.toNat ∧ IsRequest dgram then [⟨address, dgram⟩]
      else [] := by
  rw [acceptCalls, mcmchProccessDgram_eq]
  by_cases hbase : baseDgramSize ≤ size.toNat ∧ Signed dgram ∧ dgram 8 = 0
  · rw [if_pos hbase]
    show mcmchHandleAck _ dgram address size ++ [] = _
    rw [List.append_nil, mcmchHandleAck]
    by_cases hsubop : operationOf dgram &&& subopMask = ackAcceptConn
    · have hrequest : IsRequest dgram := (isRequest_iff dgram).mpr ⟨hbase.2.1, hbase.2.2, hsubop⟩
      rw [if_pos hsubop]
      by_cases hsize : size.toNat < acceptConnectionDgramSize
      · rw [if_pos hsize, if_neg (by omega)]
      · rw [if_neg hsize, if_pos ⟨not_lt.mp hsize, hrequest⟩]
    · rw [if_neg hsubop, if_neg (fun h ↦ hsubop ((isRequest_iff dgram).mp h.2).2.2)]
  · rw [if_neg hbase, if_neg]
    · rfl
    · rintro ⟨hsize, hrequest⟩
      obtain ⟨hsigned, hclass, -⟩ := (isRequest_iff dgram).mp hrequest
      refine hbase ⟨?_, hsigned, hclass⟩
      simp only [acceptConnectionDgramSize, baseDgramSize] at hsize ⊢
      omega

/-! ### What a datagram is judged by -/

/-- An update judges its datagrams by the bytes received for them: the calls and the keys and nonces
of the requests do not depend on what is in the buffer at the start, and an iteration that accepts a
client has received a whole request. -/
structure Judged (outcomes : List Receive) : Prop where
  same : ∀ dgram dgram' address address' : ByteMemory,
    (mcmchServerUpdate dgram address outcomes).map (List.map AcceptCall.request) =
      (mcmchServerUpdate dgram' address' outcomes).map (List.map AcceptCall.request)
  received : ∀ (dgram address : ByteMemory) (before after : List Receive) (outcome : Receive),
    outcomes = before ++ outcome :: after →
    (mcmchServerUpdate dgram address outcomes)[before.length]? ≠ some [] →
    ∃ datagram, outcome = .received datagram ∧ acceptConnectionDgramSize ≤ datagram.bytes.length

/-- The condition on the receives: before each failed one, a byte of the base of the datagram was
last written with one that is not that of a connection request. -/
def FailuresCovered (outcomes : List Receive) : Prop :=
  ∀ before after, outcomes = before ++ .failed :: after →
    ∃ k < baseDgramSize, ∃ byte, lastWritten k before = some byte ∧ byte ≠ requestHeader.getD k 0

theorem Receive.toNat_size_received (datagram : Datagram) :
    (Receive.received datagram).size.toNat = datagram.bytes.length := by
  have hfits := datagram.fits
  rw [dgramMaxsize] at hfits
  rw [size, BitVec.toNat_ofNat]
  exact Nat.mod_eq_of_lt (by omega)

/-- Buffers that agree on the fields of a request are processed alike. -/
theorem acceptCalls_congr {dgram dgram' : ByteMemory} (address address' : ByteMemory)
    (size : BitVec 64) (hsame : ∀ k < acceptConnectionDgramSize, dgram k = dgram' k) :
    (acceptCalls dgram address size).map AcceptCall.request =
      (acceptCalls dgram' address' size).map AcceptCall.request := by
  have hrequest : IsRequest dgram ↔ IsRequest dgram' := by
    apply forall₂_congr
    intro k hk
    rw [hsame k (by simp only [baseDgramSize, acceptConnectionDgramSize] at hk ⊢; omega)]
  have hpkey : AcceptCall.pkey ⟨address, dgram⟩ = AcceptCall.pkey ⟨address', dgram'⟩ := by
    refine List.map_congr_left fun i hi ↦ hsame _ ?_
    have hlt := List.mem_range.mp hi
    simp only [acceptConnectionDgramSize]
    omega
  have hnonce : AcceptCall.nonce ⟨address, dgram⟩ = AcceptCall.nonce ⟨address', dgram'⟩ := by
    refine List.map_congr_left fun i hi ↦ hsame _ ?_
    have hlt := List.mem_range.mp hi
    simp only [acceptConnectionDgramSize]
    omega
  rw [acceptCalls_eq, acceptCalls_eq]
  by_cases haccept : acceptConnectionDgramSize ≤ size.toNat ∧ IsRequest dgram
  · rw [if_pos haccept, if_pos ⟨haccept.1, hrequest.mp haccept.2⟩]
    simp only [List.map_cons, List.map_nil, AcceptCall.request, hpkey, hnonce]
  · rw [if_neg haccept, if_neg (fun h ↦ haccept ⟨h.1, hrequest.mpr h.2⟩)]

/-- A received datagram is processed alike whatever the buffer held before. -/
theorem acceptCalls_received (dgram dgram' address address' : ByteMemory) (datagram : Datagram) :
    (acceptCalls ((Receive.received datagram).buffer dgram) address
        (Receive.received datagram).size).map AcceptCall.request =
      (acceptCalls ((Receive.received datagram).buffer dgram') address'
        (Receive.received datagram).size).map AcceptCall.request := by
  by_cases hlong : acceptConnectionDgramSize ≤ datagram.bytes.length
  · apply acceptCalls_congr address address' _
    intro k hk
    have hinside : k < datagram.bytes.length := lt_of_lt_of_le hk hlong
    simp only [Receive.buffer_apply, Receive.written, List.getElem?_eq_getElem hinside,
      Option.getD_some]
  · rw [← Receive.toNat_size_received] at hlong
    rw [acceptCalls_eq, acceptCalls_eq, if_neg (fun h ↦ hlong h.1), if_neg (fun h ↦ hlong h.1)]

section Covered

variable {outcomes : List Receive} (hcovered : FailuresCovered outcomes)

include hcovered

/-- A failed receive that finds the base of a request overwritten accepts nobody. -/
theorem acceptCalls_failed (dgram address : ByteMemory) {before after : List Receive}
    (houtcomes : outcomes = before ++ .failed :: after) :
    acceptCalls (bufferAfter dgram before) address (-1) = [] := by
  obtain ⟨k, hk, byte, hwritten, hbyte⟩ := hcovered before after houtcomes
  rw [acceptCalls_eq, if_neg]
  rintro ⟨-, hrequest⟩
  have hlast := hrequest k hk
  rw [bufferAfter_eq, hwritten] at hlast
  exact hbyte hlast

/-- The rest of an update accepts the same requests whatever was in the buffer at its start. -/
theorem mcmchServerUpdate_same (dgram dgram' address address' : ByteMemory)
    {before rest : List Receive} (houtcomes : outcomes = before ++ rest) :
    (mcmchServerUpdate (bufferAfter dgram before) (addressAfter address before) rest).map
        (List.map AcceptCall.request) =
      (mcmchServerUpdate (bufferAfter dgram' before) (addressAfter address' before) rest).map
        (List.map AcceptCall.request) := by
  induction rest generalizing before with
  | nil => rfl
  | cons outcome rest ih =>
    have htail := @ih (before ++ [outcome]) (by simp [houtcomes])
    simp only [bufferAfter, addressAfter, List.foldl_append] at htail
    apply List.cons_eq_cons.mpr
    refine ⟨?_, htail⟩
    cases outcome with
    | failed =>
      have hnone := acceptCalls_failed hcovered dgram (addressAfter address before) houtcomes
      have hnone' := acceptCalls_failed hcovered dgram' (addressAfter address' before) houtcomes
      exact congrArg (List.map AcceptCall.request) (hnone.trans hnone'.symm)
    | received datagram => exact acceptCalls_received _ _ _ _ datagram

end Covered

/-- An update judges its datagrams by the bytes received for them exactly when every failed receive
finds the base of a request overwritten. -/
theorem mcmchServerUpdate_judged_iff (outcomes : List Receive) :
    Judged outcomes ↔ FailuresCovered outcomes := by
  constructor
  · rintro hjudged before after rfl
    by_contra hcovered
    push Not at hcovered
    -- Started from a request, the buffer still holds one when the receive fails.
    have hrequest : IsRequest (bufferAfter (bufferOf requestHeader) before) := by
      intro k hk
      rw [bufferAfter_eq]
      cases hwritten : lastWritten k before with
      | none => exact (by decide : IsRequest (bufferOf requestHeader)) k hk
      | some byte => exact hcovered k hk byte hwritten
    obtain ⟨datagram, houtcome, -⟩ := hjudged.received (bufferOf requestHeader) (bufferOf []) before
      after .failed rfl (by
        rw [mcmchServerUpdate_getElem?, acceptCalls_eq, if_pos ⟨by decide, hrequest⟩]
        simp)
    cases houtcome
  · intro hcovered
    constructor
    · intro dgram dgram' address address'
      exact mcmchServerUpdate_same hcovered dgram dgram' address address' (List.nil_append _).symm
    · intro dgram address before after outcome houtcomes hcalls
      rw [houtcomes, mcmchServerUpdate_getElem?] at hcalls
      cases outcome with
      | failed =>
        exact absurd (congrArg some (acceptCalls_failed hcovered dgram _ houtcomes)) hcalls
      | received datagram =>
        refine ⟨datagram, rfl, ?_⟩
        by_contra hshort
        rw [← Receive.toNat_size_received] at hshort
        rw [acceptCalls_eq, if_neg (fun h ↦ hshort h.1)] at hcalls
        exact hcalls rfl

/-- A connection request followed by a failed receive is accepted twice. -/
theorem not_judged_failed_after_request :
    ¬ Judged [.received ⟨requestHeader ++ List.replicate 40 7, [], by decide⟩, .failed] := by
  intro hjudged
  have hcalls := mcmchServerUpdate_getElem? (bufferOf []) (bufferOf [])
    [.received ⟨requestHeader ++ List.replicate 40 7, [], by decide⟩] [] .failed
  rw [acceptCalls_eq, if_pos (by decide)] at hcalls
  obtain ⟨datagram, houtcome, -⟩ := hjudged.received (bufferOf []) (bufferOf [])
    [.received ⟨requestHeader ++ List.replicate 40 7, [], by decide⟩] [] .failed rfl
    fun hnone ↦ List.cons_ne_nil _ _ (Option.some.inj (hcalls.symm.trans hnone))
  cases houtcome

end Mcmp.Server.Update
