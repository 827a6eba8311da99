import MbmsTx.Common.CircularBuffer
import MbmsTx.Mbsfn.Announced
import MbmsTx.Mbsfn.FourFrames
import MbmsTx.Mac.SiSched
import MbmsTx.Phy.Workers.SchedOrder
import MbmsTx.Rlc.Am.TxOverflow
import MbmsTx.Rlc.Am.Resegmentation
import MbmsTx.Rlc.Am.InSequence
import MbmsTx.Rlc.Am.Entity
import MbmsTx.Rlc.Am.RetxQueue
import MbmsTx.Rlc.Am.DeliveryRuns
import MbmsTx.Rlc.Um.Link
import MbmsTx.Rlc.UmNr.Link
import MbmsTx.Mac.MchShare
import MbmsTx.Mbsfn.Numbering
import MbmsTx.Mac.MchRoundTrip
import MbmsTx.Pdcp.Agreement
import MbmsTx.Pdcp.StatusReport
import MbmsTx.Pdcp.Freshness
import MbmsTx.Pdcp.Nr
import MbmsTx.Asn1.OpenField
import MbmsTx.Asn1.WholeNumber
import MbmsTx.Mac.PduNrBounds
import MbmsTx.Phy.PmchCount
import MbmsTx.Phy.MbsfnPilots
import MbmsTx.Phy.Fec.TurboLut
import MbmsTx.Phy.Sch
import MbmsTx.Phy.Fec.RmTurboTx
import MbmsTx.Phy.Fec.CrcEngine
import MbmsTx.Phy.Sequence
import MbmsTx.Rlc.Am.SduList
import MbmsTx.Phy.OfdmRx
import MbmsTx.Upper.GtpuWrite
import MbmsTx.Rlc.Am.RxStore
import MbmsTx.Rlc.Am.RoundTrip
import MbmsTx.Rlc.AmNr.Status
import MbmsTx.Rlc.UmNr.Termination
import MbmsTx.Asn1.BitString
import MbmsTx.Mac.Bsr
import MbmsTx.Phy.PbchMapping
import MbmsTx.Phy.OfdmBuffers
import MbmsTx.Phy.Riv
import MbmsTx.Mac.MchPdu
