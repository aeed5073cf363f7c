import Dae.Routing.Ambiguity
import Dae.Routing.Termination
import Dae.Trie.DomainMatcher
import Dae.Tproxy.Utp
import Dae.Plugin.Scope
import Dae.Outbound.ConnectionChain
import Dae.Outbound.Connectivity
import Dae.Outbound.Expansion
import Dae.Outbound.Election
import Dae.Outbound.Delivery
import Dae.Outbound.LeaseReads
import Dae.Tproxy.Fragments
import Dae.Tproxy.UdpLifetime
import Dae.Mitm.ReplayExact
import Dae.Mitm.UpstreamPools
import Dae.Outbound.RaceResult
import Dae.Sniffing.QuicUntouched
import Dae.Sniffing.StreamSniffer
import Dae.Hysteria2.Frag
import Dae.Transport.TlsFragment
import Dae.AnyTls.Padding
import Dae.DnsCache.Policy
import Dae.Config.Marshal
import Dae.Surge.ModuleRule
