import NetworkLabs.Audio.Accept
import NetworkLabs.Audio.Clamps
import NetworkLabs.Audio.Handshake
import NetworkLabs.Audio.Interrupt
import NetworkLabs.Audio.Pacing
import NetworkLabs.Audio.Signals
import NetworkLabs.Audio.Stream
import NetworkLabs.Fifo.Answers
import NetworkLabs.FileTransfer.Downloads
import NetworkLabs.FileTransfer.Files
import NetworkLabs.FileTransfer.Session
import NetworkLabs.Overlay.Bounds
import NetworkLabs.Overlay.EndToEnd
import NetworkLabs.Ping.Through
import NetworkLabs.Shell.Exact
import NetworkLabs.Traffic.Loss
import NetworkLabs.Turbo.Offsets
import NetworkLabs.Turbo.Period
import NetworkLabs.Turbo.Recovery
import NetworkLabs.Turbo.Stamp
import NetworkLabs.WeTalk.Conversation
import NetworkLabs.WeTalk.Editor
import NetworkLabs.WeTalk.Strangers
import NetworkLabs.WeTalk.Window
