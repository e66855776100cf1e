import Snort.Frag3.Reference
import Snort.Frag3.Datagram
import Snort.Stream5.PafCut
import Snort.Email.Uu
import Snort.HiPaf.Pairing
import Snort.HttpInspect.Dechunk
import Snort.HttpInspect.NormPath
import Snort.Acsm.Engines
import Snort.Acsm.Interchange
import Snort.Obfuscation.Stream
import Snort.OptionTree.Create
import Snort.KTrie.Exact
import Snort.Flowbits.Groups
import Snort.RateFilter.Isolation
import Snort.RateFilter.Sessions
import Snort.Sip.Consistent
import Snort.Dce2.Cl
import Snort.Tag.Lifetime
import Snort.Dce2.TcpPaf
import Snort.Rpc.Reassembly
import Snort.Sfrt.Failure
import Snort.Bnfa.Queue
import Snort.IpVar.Contains
import Snort.Sfxhash.Walk
import Snort.Sfxhash.Lru
import Snort.Frag3.Oversize
import Snort.Frag3.Bookkeeping
import Snort.Frag3.Refusal
import Snort.IpVar.Lists
import Snort.Util.Utf
import Snort.Util.Unfold
import Snort.Email.Base64Encoding
import Snort.Email.Checked
import Snort.HttpInspect.FlowDepth
import Snort.HttpInspect.NormParam
import Snort.Stream5.PafProgress
import Snort.Stream5.CounterRuns
import Snort.Jsnorm.Script
import Snort.Jsnorm.Spelling
import Snort.Jsnorm.Numerals
import Snort.Mstring.Contains
import Snort.Pattern.Options
import Snort.Pattern.Restart
import Snort.Pattern.Strings
import Snort.Eventq.Action
import Snort.Threshold.Suppress
import Snort.Asn1.Traverse
import Snort.Asn1.Overlong
import Snort.KMap.Map
import Snort.ByteJump.Jump
import Snort.Modbus.Paf
import Snort.Dce2.SmbPaf
import Snort.Dnp3.Crc
import Snort.Ports.Accepted
import Snort.Checksum.Internet
import Snort.HttpInspect.CookieSplit
import Snort.Ssl.Records
import Snort.Rpc.Convert
import Snort.Dce2.CoFrag
import Snort.Sdf.Single
