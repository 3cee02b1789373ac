import ManagedHeap.Value
import ManagedHeap.Decimal.Shortest
import ManagedHeap.Text.Utf8
import ManagedHeap.Text.Units
import ManagedHeap.Capacity
import ManagedHeap.Object
import ManagedHeap.Fault
import ManagedHeap.Heap.Collect
import ManagedHeap.Heap.Report
import ManagedHeap.Heap.Content
import ManagedHeap.Store
import ManagedHeap.Store.Strings
import ManagedHeap.Store.Contexts
import ManagedHeap.Store.Records
import ManagedHeap.Store.Errors
import ManagedHeap.Store.Setup
import ManagedHeap.Store.Operation
import ManagedHeap.Main
import ManagedHeap.Heap.Inspect
import ManagedHeap.Proofs.Heap.Representation
import ManagedHeap.Proofs.Concatenation
import ManagedHeap.Proofs.Equality
import ManagedHeap.Proofs.Slicing
import ManagedHeap.Proofs.Interning
import ManagedHeap.Proofs.StringStructure
import ManagedHeap.Proofs.LengthLimit
import ManagedHeap.Proofs.Handles
import ManagedHeap.Proofs.Heap.Accounting
import ManagedHeap.Proofs.Accounting
import ManagedHeap.Proofs.OutOfMemory
import ManagedHeap.Proofs.Survivors
import ManagedHeap.Proofs.Layouts
import ManagedHeap.Proofs.ShapeCaches
import ManagedHeap.Proofs.DegradedText
import ManagedHeap.Proofs.BoundedText
import ManagedHeap.Proofs.Flattening
import ManagedHeap.Proofs.InterningRanges
import ManagedHeap.Proofs.InternalFaults
import ManagedHeap.Proofs.Narrowness
import ManagedHeap.Proofs.Texts
import ManagedHeap.Proofs.Literals
import ManagedHeap.Proofs.NumberTexts
import ManagedHeap.Proofs.Transplanting
import ManagedHeap.Proofs.SingleUnits
import ManagedHeap.Proofs.Decimals
import ManagedHeap.Proofs.TemplateErrors
import ManagedHeap.Proofs.Heap.MarkingLoop
import ManagedHeap.Proofs.Durable
import ManagedHeap.Proofs.LayoutInvariants
import ManagedHeap.Proofs.Readers
import ManagedHeap.Proofs.Scopes
import ManagedHeap.Proofs.ContextChains
