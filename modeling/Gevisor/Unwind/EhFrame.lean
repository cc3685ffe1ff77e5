import Gevisor.Lib.Exec
import Gevisor.Unwind.Pointer

/-! # The exception handler framework

The entries of an `.eh_frame` section as `eh_frame.cpp` parses them, and `find_fde`. The state is the list of reads of
entry headers: where they start, and how many bytes they are of. Loops are followed up to `limit` rounds.
-/

namespace Gevisor.Unwind

open Elf (Word Byte Bytes fetch)

structure EhFrame where
  addr : Word
  size : Word
  deriving DecidableEq

structure CommonEntry where
  isCie : Bool := false
  entryStart : Word := 0
  entryEnd : Word := 0
  payloadStart : Word := 0
  payloadEnd : Word := 0
  ehFrame : EhFrame := ⟨0, 0⟩
  deriving DecidableEq

/-- What the augmentation data of a CIE gives. -/
structure Encodings where
  pointer : Word := 0
  lsda : Word := 0
  personality : Word := 0
  personalityFunction : Word := 0
  deriving DecidableEq

structure CiEntry extends CommonEntry where
  augmentationString : Word := 0
  codeAlignment : Word := 0
  dataAlignment : Word := 0
  returnAddressReg : Word := 0
  encodings : Encodings := {}
  initialInstructions : Word := 0
  deriving DecidableEq

structure FdEntry extends CommonEntry where
  pcBegin : Word := 0
  pcRange : Word := 0
  lsda : Word := 0
  instructions : Word := 0
  cie : CiEntry := {}
  deriving DecidableEq

abbrev UnwindM := EStateM Stop (List (Word × Nat))

def ofExcept (result : Except Stop α) : UnwindM α :=
  match result with
  | .ok a => pure a
  | .error stop => throw stop

/-- `operator bool`. -/
def CommonEntry.valid (entry : CommonEntry) : Bool := entry.entryStart ≠ 0

section Parsing

variable (memory : Bytes) (limit : Nat)

def readHeader (addr : Word) (n : Nat) : UnwindM Word := do
  modify ((addr, n) :: ·)
  pure (fetch memory addr n)

/-- The length field and where the payload starts. -/
def readLength (start : Word) : UnwindM (Word × Word) := do
  let first ← readHeader memory start 4
  if first ≠ 0xFFFFFFFF then
    let len ← readHeader memory start 4
    pure (len, start + 4)
  else
    let len ← readHeader memory (start + 4) 8
    pure (len, start + 12)

/-- `common_entry::non_virtual_parse`. The label `failure` clears all but the section. -/
def parseCommon (ehFrame : EhFrame) (addr : Word) : UnwindM CommonEntry := do
  if addr = 0 then return { ehFrame }
  if addr < ehFrame.addr then return { ehFrame }
  let (len, payloadStart) ← readLength memory addr
  if len = 0 then return { ehFrame }
  let payloadEnd := payloadStart + len
  if ehFrame.addr + ehFrame.size < payloadEnd then return { ehFrame }
  let id ← readHeader memory payloadStart 4
  return { isCie := id = 0, entryStart := addr, entryEnd := payloadEnd, payloadStart, payloadEnd, ehFrame }

/-- `while (*p++ != 0)`. -/
def skipString : Nat → Word → Except Stop Word
  | 0, _ => .error .running
  | n + 1, p => if memory p = 0 then .ok (p + 1) else skipString n (p + 1)

/-- The loop over the letters after the `z`; the index is an `unsigned int`. -/
def parseLetters (string len : Word) : Nat → BitVec 32 → Word → Encodings → Except Stop (Word × Encodings)
  | 0, _, _, _ => .error .running
  | n + 1, i, p, encodings =>
    let letter := memory (string + i.setWidth 64)
    if i.setWidth 64 ≤ len ∧ letter ≠ 0 then
      if letter = 0x4C then -- 'L'
        parseLetters string len n (i + 1) (p + 1) { encodings with lsda := (memory p).setWidth 64 }
      else if letter = 0x50 then do -- 'P'
        let personality := (memory p).setWidth 64
        let (personalityFunction, p) ← decodePointer memory limit (p + 1) personality
        parseLetters string len n (i + 1) p { encodings with personality, personalityFunction }
      else if letter = 0x52 then -- 'R'
        parseLetters string len n (i + 1) (p + 1) { encodings with pointer := (memory p).setWidth 64 }
      else .error (.abort "unknown augmentation string character")
    else .ok (p, encodings)

/-- The constructor of `ci_entry` with an address, which calls `non_virtual_parse`. -/
def ciEntry (ehFrame : EhFrame) (addr : Word) : UnwindM CiEntry := do
  let common ← parseCommon memory ehFrame addr
  if ¬ common.valid then return { toCommonEntry := common }
  if ¬ common.isCie then return { toCommonEntry := common }
  let augmentationString := common.payloadStart + 4 + 1
  let p ← ofExcept (skipString memory limit augmentationString)
  let (codeAlignment, p) ← ofExcept (readUleb memory limit p)
  let (dataAlignment, p) ← ofExcept (readSleb memory limit p)
  let (returnAddressReg, p) ← ofExcept (readUleb memory limit p)
  let (p, encodings) ←
    if memory augmentationString = 0x7A then do -- 'z'
      let (len, p) ← ofExcept (readUleb memory limit p)
      ofExcept (parseLetters memory limit augmentationString len limit 1 p {})
    else pure (p, {})
  return { toCommonEntry := common, augmentationString, codeAlignment, dataAlignment, returnAddressReg, encodings,
           initialInstructions := p }

/-- `ci_entry::augmentation_string`. -/
def CiEntry.augmentation (cie : CiEntry) (i : BitVec 32) : Except Stop Byte :=
  if cie.augmentationString = 0 then .error .nullDereference
  else .ok (memory (cie.augmentationString + i.setWidth 64))

/-- The loop over the augmentation string of the CIE, for the data of an FDE. -/
def parseLsda (cie : CiEntry) (len : Word) : Nat → BitVec 32 → Word → Word → Except Stop (Word × Word)
  | 0, _, _, _ => .error .running
  | n + 1, i, p, lsda => do
    let letter ← cie.augmentation memory i
    if letter ≠ 0 ∧ i.setWidth 64 ≤ len then
      if letter = 0x4C then do -- 'L'
        let (lsda, p) ← decodePointer memory limit p cie.encodings.lsda
        parseLsda cie len n (i + 1) p lsda
      else if letter = 0x50 then parseLsda cie len n (i + 1) p lsda -- 'P'
      else if letter = 0x52 then parseLsda cie len n (i + 1) p lsda -- 'R'
      else .error (.abort "unknown augmentation string character")
    else .ok (lsda, p)

/-- `fd_entry::non_virtual_parse`. An entry that is no FDE keeps the fields of the entry before it. -/
def FdEntry.parse (entry : FdEntry) (addr : Word) : UnwindM FdEntry := do
  let common ← parseCommon memory entry.ehFrame addr
  let entry := { entry with toCommonEntry := common }
  if ¬ common.valid then return entry
  if common.isCie then return entry
  let p := common.payloadStart
  let distance ← readHeader memory p 4
  let cie ← ciEntry memory limit common.ehFrame (p - distance)
  let (pcBegin, p) ← ofExcept (decodePointer memory limit (p + 4) cie.encodings.pointer)
  let (pcRange, p) ← ofExcept (decodePointer memory limit p (cie.encodings.pointer &&& 0xF))
  let first ← ofExcept (cie.augmentation memory 0)
  let (lsda, p) ←
    if first = 0x7A then do -- 'z'
      let (len, p) ← ofExcept (readUleb memory limit p)
      ofExcept (parseLsda memory limit cie len limit 1 p entry.lsda)
    else pure (entry.lsda, p)
  return { entry with cie, pcBegin, pcRange, lsda, instructions := p }

/-- `common_entry::operator++`. -/
def FdEntry.next (entry : FdEntry) : UnwindM FdEntry :=
  if ¬ entry.valid then pure entry
  else if entry.entryEnd + 4 < entry.ehFrame.addr + entry.ehFrame.size then entry.parse memory limit entry.entryEnd
  else entry.parse memory limit 0

def FdEntry.isInRange (entry : FdEntry) (pc : Word) : Bool :=
  entry.pcBegin < pc ∧ pc ≤ entry.pcBegin + entry.pcRange

/-- The loop over the entries of one section. -/
def scan (pc : Word) : Nat → FdEntry → UnwindM (Option FdEntry)
  | 0, _ => throw .running
  | n + 1, fde =>
    if ¬ fde.valid then pure none
    else if fde.isCie then do scan pc n (← fde.next memory limit)
    else if fde.isInRange pc then pure (some fde)
    else do scan pc n (← fde.next memory limit)

/-- The loop over the modules, and the invalid entry after it. -/
def findFdeFrom (pc : Word) : List EhFrame → UnwindM FdEntry
  | [] => pure {}
  | ehFrame :: rest => do
    let fde ← FdEntry.parse memory limit { ehFrame } ehFrame.addr
    match ← scan memory limit pc limit fde with
    | some fde => pure fde
    | none => findFdeFrom pc rest

def maxNumModules : Nat := 75

def findFde (ehFrameList : Vector EhFrame maxNumModules) (pc : Word) : UnwindM FdEntry :=
  findFdeFrom memory limit pc ehFrameList.toList

end Parsing

end Gevisor.Unwind
