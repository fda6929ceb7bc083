import NbdVram.AllocChoice
import NbdVram.Answers
import NbdVram.Drain
import NbdVram.Handshake
import NbdVram.GapCheck
import NbdVram.Power
import NbdVram.Harmless
import NbdVram.Session
import NbdVram.Stats
import NbdVram.Device
import NbdVram.Windows
import NbdVram.Updates
import NbdVram.Draws
import NbdVram.Capacity
import NbdVram.Report
import NbdVram.Occupancy
import NbdVram.Monitor
import NbdVram.Install
import NbdVram.Disconnect
import NbdVram.Cost
import NbdVram.Connection
