import IonOS.Arch.Backing
import IonOS.Arch.Discard
import IonOS.Arch.Madt
import IonOS.Arch.Segments
import IonOS.Arch.Space
import IonOS.Hel.Backlog
import IonOS.Hel.Shortage
import IonOS.Hel.Bind
import IonOS.Hel.Child
import IonOS.Hel.Console
import IonOS.Hel.Dispatch
import IonOS.Hel.Report
import IonOS.Hel.Stream
import IonOS.Libs.Update
import IonOS.Mm.Inventory
import IonOS.Proc.Copy
import IonOS.Proc.Lifetime
import IonOS.Proc.Rotation
import IonOS.Proc.Selection
import IonOS.Proc.Slots
import IonOS.Proc.Stack
import IonOS.Alloc.Areas
import IonOS.Alloc.LargeTable
import IonOS.Alloc.Request
import IonOS.Alloc.Moving
import IonOS.Alloc.Locked
import IonOS.Alloc.Store
import IonOS.Alloc.Init
import IonOS.Alloc.Joins
import IonOS.Alloc.Ledger
import IonOS.Alloc.Teardown
import IonOS.Alloc.SizedPool
import IonOS.Libs.Render
import IonOS.Alloc.Enlarge
import IonOS.Alloc.ClassLists
