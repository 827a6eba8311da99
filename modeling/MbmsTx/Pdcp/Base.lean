import Mathlib.Data.Nat.Bitwise

/-!
# PDCP: what the LTE and the NR entities share

A COUNT is made of a hyper frame number and a sequence number, of which only the latter is sent. A
cipher adds a keystream that depends on the COUNT (key, bearer and direction are fixed), and an
integrity algorithm computes four bytes from the COUNT and the message.
-/

namespace MbmsTx.Pdcp

/-- The values of `sn_len`. -/
inductive SnLen
  | len5
  | len7
  | len12
  | len15
  | len18
  deriving DecidableEq

/-- `sn_len`. -/
def SnLen.bits : SnLen → ℕ
  | .len5 => 5
  | .len7 => 7
  | .len12 => 12
  | .len15 => 15
  | .len18 => 18

def SnLen.hdrLenBytes (len : SnLen) : ℕ := (len.bits + 7) / 8

/-- `pdcp_rb_type_t`. -/
inductive RbType
  | srb
  | drb
  deriving DecidableEq

/-- `srsran_direction_t`. -/
inductive Direction
  | none
  | tx
  | rx
  | txrx
  deriving DecidableEq

/-- `DIRECTION_TX` or `DIRECTION_TXRX`. -/
def Direction.hasTx : Direction → Bool
  | .tx | .txrx => true
  | .none | .rx => false

/-- `DIRECTION_RX` or `DIRECTION_TXRX`. -/
def Direction.hasRx : Direction → Bool
  | .rx | .txrx => true
  | .none | .tx => false

/-- `enable_integrity` and `enable_encryption`, on what was enabled before. -/
def Direction.enable : (current direction : Direction) → Direction
  | .tx, .rx => .txrx
  | .rx, .tx => .txrx
  | _, direction => direction

/-! ## HFN, SN and COUNT -/

section

variable (len : SnLen)

def hfn (count : ℕ) : ℕ := count >>> len.bits

def sn (count : ℕ) : ℕ := count &&& (0xFFFFFFFF >>> (32 - len.bits))

def count (hfn sn : ℕ) : ℕ := (hfn <<< len.bits ||| sn) % 2 ^ 32

end

section

variable {len : SnLen}

theorem sn_eq_mod (c : ℕ) : sn len c = c % 2 ^ len.bits := by
  have hmask : 0xFFFFFFFF >>> (32 - len.bits) = 2 ^ len.bits - 1 := by
    cases len with
    | len5 | len7 | len12 | len15 | len18 => rfl
  rw [sn, hmask, Nat.and_two_pow_sub_one_eq_mod]

theorem sn_lt (c : ℕ) : sn len c < 2 ^ len.bits := by
  rw [sn_eq_mod]
  omega

theorem hfn_eq_div (c : ℕ) : hfn len c = c / 2 ^ len.bits := Nat.shiftRight_eq_div_pow _ _

theorem count_eq {h s : ℕ} (hs : s < 2 ^ len.bits) :
    count len h s = (h * 2 ^ len.bits + s) % 2 ^ 32 := by
  rw [count, ← Nat.shiftLeft_add_eq_or_of_lt hs, Nat.shiftLeft_eq]

theorem count_hfn_sn {c : ℕ} (hc : c < 2 ^ 32) : count len (hfn len c) (sn len c) = c := by
  rw [count_eq (sn_lt c), hfn_eq_div, sn_eq_mod, Nat.div_add_mod', Nat.mod_eq_of_lt hc]

end

/-! ## Packing -/

def readDataHeader (len : SnLen) (pdu : List UInt8) : ℕ :=
  if pdu.length ≤ len.hdrLenBytes then 0
  else
    let byte := fun i => (pdu.getD i 0).toNat
    match len with
    | .len5 | .len7 => sn len (byte 0)
    | .len12 => sn len (byte 0 <<< 8 ||| byte 1)
    | .len18 => sn len (byte 0 <<< 16 ||| byte 1 <<< 8 ||| byte 2)
    | .len15 => 0

def discardDataHeader (len : SnLen) (pdu : List UInt8) : List UInt8 := pdu.drop len.hdrLenBytes

/-- `is_control_pdu`: the D/C field is the first bit. -/
def isControlPdu (pdu : List UInt8) : Bool := (pdu.getD 0 0 >>> 7) &&& 0x01 = 0

/-- `append_mac`, for a message with so much tailroom. -/
def appendMac (tailroom : ℕ) (msg mac : List UInt8) : List UInt8 :=
  if tailroom < msg.length + 4 then msg else msg ++ mac

/-- `extract_mac`: the message and the code, which stays `stack`, what the stack held, if there is
none. -/
def extractMac (stack : List UInt8) (pdu : List UInt8) : List UInt8 × List UInt8 :=
  if pdu.length < 4 then (pdu, stack) else (pdu.take (pdu.length - 4), pdu.drop (pdu.length - 4))

/-! ## Security -/

/-- The algorithms of a bearer in one direction, with their keys. EEA0 is no cipher, EIA0 no
algorithm. -/
structure Security where
  keystream : Option (ℕ → ℕ → UInt8)
  mac : Option (ℕ → List UInt8 → Fin 4 → UInt8)

namespace Security

/-- `cipher_encrypt` and `cipher_decrypt`. -/
def cipher (sec : Security) (count : ℕ) (msg : List UInt8) : List UInt8 :=
  match sec.keystream with
  | none => msg
  | some keystream => msg.mapIdx fun i byte => byte ^^^ keystream count i

/-- `integrity_generate`, over a code of zeros. -/
def integrityGenerate (sec : Security) (count : ℕ) (msg : List UInt8) : List UInt8 :=
  match sec.mac with
  | none => List.replicate 4 0
  | some mac => List.ofFn (mac count msg)

def integrityVerify (sec : Security) (count : ℕ) (msg code : List UInt8) : Bool :=
  match sec.mac with
  | none => true
  | some mac => code = List.ofFn (mac count msg)

@[simp] theorem length_cipher (sec : Security) (count : ℕ) (msg : List UInt8) :
    (sec.cipher count msg).length = msg.length := by
  unfold cipher
  split
  · rfl
  · exact List.length_mapIdx

@[simp] theorem length_integrityGenerate (sec : Security) (count : ℕ) (msg : List UInt8) :
    (sec.integrityGenerate count msg).length = 4 := by
  unfold integrityGenerate
  split
  · rfl
  · exact List.length_ofFn

end Security

end MbmsTx.Pdcp
