import ShakeAccel.Soft.OneShot
import ShakeAccel.Soft.Sha3
import ShakeAccel.Soft.CShake
import ShakeAccel.Soft.StackBench
import ShakeAccel.Keccak.Session
import ShakeAccel.Keccak.Control
import ShakeAccel.Keccak.Restart
import ShakeAccel.Accel.Course
import ShakeAccel.Bus.Frame
import ShakeAccel.Bus.Handshake
import ShakeAccel.Bus.Recovery
import ShakeAccel.Bus.RegisterFile
import ShakeAccel.Bus.DataWindow
import ShakeAccel.Reference.Nist
import ShakeAccel.Reference.Duplex
import ShakeAccel.LowArea.Bench
import ShakeAccel.MidRange.Bench
import ShakeAccel.Reference.TestVectors
import ShakeAccel.Axi.Fifo
import ShakeAccel.Axi.WriteCtrl
import ShakeAccel.Axi.ReadCtrl
import ShakeAccel.Axi.MemIf
import ShakeAccel.Axi.Progress
import ShakeAccel.Axi.DataRam
import ShakeAccel.Axi.Accelerator
