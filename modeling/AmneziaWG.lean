import AmneziaWG.Device.Obf.Conformance
import AmneziaWG.Device.Uapi.Handle
import AmneziaWG.Device.Noise.Acceptance
import AmneziaWG.Device.Noise.Agreement
import AmneziaWG.Device.Noise.OneKeypair
import AmneziaWG.Device.Noise.Timestamps
import AmneziaWG.Device.Burst
import AmneziaWG.Device.Delivery
import AmneziaWG.Device.Tunnel
import AmneziaWG.Device.Nonces
import AmneziaWG.Device.PaddingRoom
import AmneziaWG.Device.Staging.Stop
import AmneziaWG.Conn.Coalesce
import AmneziaWG.Conn.Split
import AmneziaWG.Conn.WinRing
import AmneziaWG.Tun.Segmentation
import AmneziaWG.Tun.Gro.Headers
import AmneziaWG.Tools.Port
import AmneziaWG.Outline.Ambiguity
import AmneziaWG.Device.BindMark
import AmneziaWG.Device.AllowedIPs.Structure
import AmneziaWG.Device.Obf.Platforms
import AmneziaWG.Device.Obf.JunkSeeds
import AmneziaWG.Device.Obf.Grammar
