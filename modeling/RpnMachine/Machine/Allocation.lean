import RpnMachine.Machine.Pointer

/-! Making room, new objects, and the scratchpad. -/
namespace RpnMachine

/-- Makes `length` bytes of the scratchpad above a mark the payload of a sized object at `start`,
and cuts the scratchpad back to the mark. -/
def Heap.seal? (h : Heap) (k : Kind) (mark start length : Nat) : Option Heap := do
  let kind := Encoding.mark k
  let size := Varint.encode length
  let body := start + kind.length
  let payload := body + size.length
  let source := h.temporaryEnd + mark
  let memory ← h.memory.copy? source (source + length) payload
  let memory ← memory.write? start body kind
  let memory ← memory.write? body payload size
  truncate? { h with memory } mark

namespace Run

def collect : Run Collection := do
  let _ ← sample
  changeBoth Heap.collect?

/-- Makes sure that `n` bytes are free, by a collection if need be. -/
def reserve (n : Nat) : Run Unit := do
  if (← readHeap Heap.free?) < n then
    let _ ← collect
    if (← readHeap Heap.free?) < n then
      fail (.outOfMemory n)

/-- Adds `n` bytes to the temporaries, which hold what the free bytes held. -/
def allocate (n : Nat) : Run Nat := do
  reserve n
  changeHeap (·.extend? n)

/-- Takes the last `n` bytes of the temporaries back. Nothing may refer to them. -/
def deallocate (n : Nat) : Run Unit := updateHeap (·.retract? n)

def make (r : Recipe) : Run Pointer := do
  let n := r.requiredMemory
  let start ← allocate n
  updateHeap fun h => do return { h with memory := ← h.memory.write? start (start + n) r.encode }
  register start

def scratchMark : Run Nat := readHeap Heap.scratchLength?

def scratchRelease (mark : Nat) : Run Unit := updateHeap (·.truncate? mark)

def scratchAbove (mark : Nat) : Run (List UInt8) := readHeap (·.above? mark)

def scratchAppend (new : List UInt8) : Run Unit := do
  reserve new.length
  updateHeap (·.append? new)

def scratchAppendObject (p : Pointer) : Run Unit := do
  let n ← size p
  reserve n
  let start ← position p
  updateHeap (·.appendCopy? start n)

/-- Makes a sized object of the scratchpad above a mark, and cuts the scratchpad back to the mark
in any case. -/
def makeFromScratch (k : Kind) (mark : Nat) : Run Pointer := do
  let length ← readHeap fun h => do Word.minus? (← h.scratchLength?) mark
  let header := (Encoding.mark k).length + Varint.encodedLength length
  let start ← onFailure (scratchRelease mark) (allocate (header + length))
  updateHeap (·.seal? k mark start length)
  register start

end Run
end RpnMachine
