import CpuSched.State
import CpuSched.Select
import CpuSched.Fcfs
import CpuSched.Priority
import CpuSched.Driver
import CpuSched.Ownership
import CpuSched.Priorities
import CpuSched.Membership
import CpuSched.Contract
import CpuSched.Selection
import CpuSched.Progress
import CpuSched.Release
import CpuSched.Blocking
import CpuSched.Aging
import CpuSched.Fifo
import CpuSched.Order
import CpuSched.Agreement
import CpuSched.Arrival
