import Mathlib.Algebra.Ring.Nat

/-!
# Segments of PDCP SDUs in RLC PDUs

The transmitter tracks which SDU parts an RLC PDU carries, so that PDCP can be told when an SDU is
acknowledged. A segment resource of a fixed pool is in the list of the RLC PDU and in the list of
the SDU, and goes back to the free list when both have released it.
-/

namespace MbmsTx.Rlc.Am

/-- `rlc_am_pdu_segment_pool::MAX_POOL_SIZE`. -/
def maxPoolSize : ℕ := 16384

/-- `pdcp_pdu_info`: the SDU, whether it is fully transmitted, and its segments that are not
acknowledged. The invalid SN is `none`. -/
structure PdcpPduInfo where
  sn : Option ℕ := none
  fullyTxed : Bool := false
  list : List ℕ := []
deriving DecidableEq

/-- `pdcp_pdu_info::fully_acked`. -/
def PdcpPduInfo.fullyAcked (info : PdcpPduInfo) : Bool := info.fullyTxed && info.list.isEmpty

/-- `rlc_am_pdu_segment_pool` and `buffered_pdcp_pdu_list`. A segment resource is its index in the
pool; invalid SNs are `none`. -/
structure SegmentTracking where
  rlcSn : ℕ → Option ℕ
  pdcpSn : ℕ → Option ℕ
  freeList : List ℕ
  pdus : Option ℕ → PdcpPduInfo
  count : BitVec 32

namespace SegmentTracking

/-- The constructors: every resource goes to the front of the free list. -/
def init : SegmentTracking where
  rlcSn := fun _ => none
  pdcpSn := fun _ => none
  freeList := (List.range maxPoolSize).reverse
  pdus := fun _ => {}
  count := 0

def hasSegments (t : SegmentTracking) : Bool := !t.freeList.isEmpty

def releaseRlcSn (t : SegmentTracking) (id : ℕ) : SegmentTracking :=
  { t with
      rlcSn := fun j => if j = id then none else t.rlcSn j
      freeList := if t.pdcpSn id = none then id :: t.freeList else t.freeList }

def releasePdcpSn (t : SegmentTracking) (id : ℕ) : SegmentTracking :=
  { t with
      pdcpSn := fun j => if j = id then none else t.pdcpSn j
      freeList := if t.rlcSn id = none then id :: t.freeList else t.freeList }

/-- The destructor of `rlc_amd_tx_pdu` releases its segments one after the other. -/
def releasePdu (t : SegmentTracking) (list : List ℕ) : SegmentTracking :=
  list.foldl releaseRlcSn t

/-- `pdcp_pdu_info::status_report_sn`. -/
def statusReportSn : ℕ := 2 ^ 32 - 1

/-- `get_pdu_`: a status report has a place of its own, other SDUs that of their SN modulo the
buffer size. -/
def pduIndex (sn : ℕ) : Option ℕ := if sn = statusReportSn then none else some (sn % 4096)

def hasPdcpSn (t : SegmentTracking) (sn : ℕ) : Bool := (t.pdus (pduIndex sn)).sn = some sn

/-- The list with the information of one SDU changed. -/
def modifyPdu (t : SegmentTracking) (sn : ℕ) (f : PdcpPduInfo → PdcpPduInfo) : SegmentTracking :=
  { t with pdus := fun i => if i = pduIndex sn then f (t.pdus i) else t.pdus i }

/-- `pdcp_pdu_info::ack_segment`. -/
def ackSegment (t : SegmentTracking) (sn id : ℕ) : SegmentTracking :=
  (t.modifyPdu sn fun info => { info with list := info.list.erase id }).releasePdcpSn id

/-- `pdcp_pdu_info::clear`: the segments are released from the front. -/
def clearPdu (t : SegmentTracking) (sn : ℕ) : SegmentTracking :=
  ((t.pdus (pduIndex sn)).list.foldl releasePdcpSn t).modifyPdu sn fun _ => {}

def addPdcpSdu (t : SegmentTracking) (sn : ℕ) : SegmentTracking :=
  let t :=
    if (t.pdus (pduIndex sn)).sn.isSome then { t.clearPdu sn with count := t.count - 1 } else t
  { t.modifyPdu sn fun info => { info with sn := some sn } with count := t.count + 1 }

def clearPdcpSdu (t : SegmentTracking) (sn : ℕ) : SegmentTracking :=
  if (t.pdus (pduIndex sn)).sn.isSome then { t.clearPdu sn with count := t.count - 1 } else t

/-- `make_segment`: the resource from the free list is put in front of the list of the RLC PDU,
which is returned, and of the SDU. -/
def makeSegment (t : SegmentTracking) (rlcSn pdcpSn : ℕ) (list : List ℕ) :
    SegmentTracking × List ℕ :=
  match t.freeList with
  | [] => (t, list)
  | id :: free =>
    ({ t.modifyPdu pdcpSn fun info => { info with list := id :: info.list } with
        rlcSn := fun j => if j = id then some rlcSn else t.rlcSn j
        pdcpSn := fun j => if j = id then some pdcpSn else t.pdcpSn j
        freeList := free }, id :: list)

/-- Mark the SDU as fully transmitted when nothing of it is left. -/
def markFullyTxed (t : SegmentTracking) (sn : ℕ) (left : ℕ) : SegmentTracking :=
  if left = 0 then t.modifyPdu sn fun info => { info with fullyTxed := true } else t

/-- One round of `update_notification_ack_info`: a segment of the acknowledged RLC PDU. The SN to be
notified goes into the vector, which holds at most `capacity`. -/
def ackOne (capacity : ℕ) (st : SegmentTracking × List ℕ) (id : ℕ) : SegmentTracking × List ℕ :=
  match st.1.pdcpSn id with
  | none => st
  | some sn =>
    let t := st.1.ackSegment sn id
    if (t.pdus (pduIndex sn)).fullyAcked then
      (t.clearPdcpSdu sn, if st.2.length < capacity then st.2 ++ [sn] else st.2)
    else (t, st.2)

/-- `update_notification_ack_info`, over the segments of the acknowledged RLC PDU. -/
def updateNotificationAckInfo (capacity : ℕ) (ids : List ℕ) (st : SegmentTracking × List ℕ) :
    SegmentTracking × List ℕ :=
  ids.foldl (ackOne capacity) st

/-! ## The free list -/

theorem length_freeList_makeSegment (t : SegmentTracking) (rlcSn pdcpSn : ℕ) (list : List ℕ) :
    t.freeList.length ≤ (t.makeSegment rlcSn pdcpSn list).1.freeList.length + 1 := by
  unfold makeSegment
  split
  · simp
  · next id free hfree =>
    rewrite [hfree, List.length_cons]
    rfl

theorem freeList_markFullyTxed (t : SegmentTracking) (sn left : ℕ) :
    (t.markFullyTxed sn left).freeList = t.freeList := by
  unfold markFullyTxed
  split <;> rfl

end SegmentTracking

end MbmsTx.Rlc.Am
