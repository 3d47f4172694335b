import BareMetal.Lib.Free
import BareMetal.Lib.Bits
import BareMetal.Virt.Copy
import BareMetal.Virt.Calls
import BareMetal.Phys.Logic
import BareMetal.Virt.Proof.Clone
import BareMetal.Virt.Proof.Translate
import BareMetal.Virt.Proof.Cycle
import BareMetal.Virt.Proof.Life
import BareMetal.Virt.Proof.Sized
import BareMetal.Virt.Proof.TearDown
import BareMetal.Virt.Proof.Duplicate
import BareMetal.Virt.Proof.Image
import BareMetal.Virt.Proof.Drop
import BareMetal.Virt.Proof.Hardware
import BareMetal.Virt.Proof.Authority
import BareMetal.Kernel.Proof.Sound
import BareMetal.Kernel.Proof.Layout
import BareMetal.Kernel.Proof.Unseen
import BareMetal.Kernel.Proof.Limits
import BareMetal.Kernel.Proof.Callers
import BareMetal.User.Proof.Ulib
import BareMetal.Kernel.Proof.Exit
import BareMetal.Kernel.Proof.First
import BareMetal.Kernel.Proof.Turns
import BareMetal.Kernel.Proof.Isolation
import BareMetal.Kernel.Proof.Delivery
import BareMetal.Kernel.Proof.Clock
import BareMetal.Kernel.Proof.Restored
