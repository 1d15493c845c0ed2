import Mathlib.Data.BitVec
import LinuxKernel.Base.Errno

/-! # Socket filters

A filter is a program for a small machine with an accumulator, an index register and sixteen cells
of memory. `sk_chk_filter` looks at a program before it is used and rewrites its codes, and
`sk_run_filter` runs the rewritten program on a packet without any checks of its own.
-/

namespace LinuxKernel.Filter

open Function

section Codes

/-- The codes that `sk_run_filter` knows, in the order of their numbers. -/
inductive Code where
  | retK | retA
  | aluAddK | aluAddX | aluSubK | aluSubX | aluMulK | aluMulX | aluDivX
  | aluAndK | aluAndX | aluOrK | aluOrX | aluLshK | aluLshX | aluRshK | aluRshX | aluNeg
  | ldWAbs | ldHAbs | ldBAbs | ldWLen | ldWInd | ldHInd | ldBInd | ldImm
  | ldxWLen | ldxBMsh | ldxImm | miscTax | miscTxa | aluDivK | ldMem | ldxMem | st | stx
  | jmpJa | jmpJeqK | jmpJeqX | jmpJgeK | jmpJgeX | jmpJgtK | jmpJgtX | jmpJsetK | jmpJsetX
  | ancProtocol | ancPkttype | ancIfindex | ancNlattr | ancNlattrNest | ancMark | ancQueue
  | ancHatype | ancRxhash | ancCpu
deriving DecidableEq

def Code.all : List Code :=
  [.retK, .retA, .aluAddK, .aluAddX, .aluSubK, .aluSubX, .aluMulK, .aluMulX, .aluDivX, .aluAndK,
    .aluAndX, .aluOrK, .aluOrX, .aluLshK, .aluLshX, .aluRshK, .aluRshX, .aluNeg, .ldWAbs, .ldHAbs,
    .ldBAbs, .ldWLen, .ldWInd, .ldHInd, .ldBInd, .ldImm, .ldxWLen, .ldxBMsh, .ldxImm, .miscTax,
    .miscTxa, .aluDivK, .ldMem, .ldxMem, .st, .stx, .jmpJa, .jmpJeqK, .jmpJeqX, .jmpJgeK, .jmpJgeX,
    .jmpJgtK, .jmpJgtX, .jmpJsetK, .jmpJsetX, .ancProtocol, .ancPkttype, .ancIfindex, .ancNlattr,
    .ancNlattrNest, .ancMark, .ancQueue, .ancHatype, .ancRxhash, .ancCpu]

/-- The numbers start with one. -/
def Code.num (c : Code) : ℕ := Code.all.idxOf c + 1

def Code.ofNum (n : ℕ) : Option Code := if n = 0 then none else Code.all[n - 1]?

/-- The parts that the codes of a user are made of. -/
def bpfLd := 0x00
def bpfLdx := 0x01
def bpfSt := 0x02
def bpfStx := 0x03
def bpfAlu := 0x04
def bpfJmp := 0x05
def bpfRet := 0x06
def bpfMisc := 0x07
def bpfW := 0x00
def bpfH := 0x08
def bpfB := 0x10
def bpfImm := 0x00
def bpfAbs := 0x20
def bpfInd := 0x40
def bpfMem := 0x60
def bpfLen := 0x80
def bpfMsh := 0xa0
def bpfAdd := 0x00
def bpfSub := 0x10
def bpfMul := 0x20
def bpfDiv := 0x30
def bpfOr := 0x40
def bpfAnd := 0x50
def bpfLsh := 0x60
def bpfRsh := 0x70
def bpfNeg := 0x80
def bpfJa := 0x00
def bpfJeq := 0x10
def bpfJgt := 0x20
def bpfJge := 0x30
def bpfJset := 0x40
def bpfK := 0x00
def bpfX := 0x08
def bpfA := 0x10
def bpfTax := 0x00
def bpfTxa := 0x80

/-- The table of the valid codes of `sk_chk_filter`. -/
def codes : List (ℕ × Code) :=
  [(bpfAlu ||| bpfAdd ||| bpfK, .aluAddK), (bpfAlu ||| bpfAdd ||| bpfX, .aluAddX),
    (bpfAlu ||| bpfSub ||| bpfK, .aluSubK), (bpfAlu ||| bpfSub ||| bpfX, .aluSubX),
    (bpfAlu ||| bpfMul ||| bpfK, .aluMulK), (bpfAlu ||| bpfMul ||| bpfX, .aluMulX),
    (bpfAlu ||| bpfDiv ||| bpfX, .aluDivX), (bpfAlu ||| bpfAnd ||| bpfK, .aluAndK),
    (bpfAlu ||| bpfAnd ||| bpfX, .aluAndX), (bpfAlu ||| bpfOr ||| bpfK, .aluOrK),
    (bpfAlu ||| bpfOr ||| bpfX, .aluOrX), (bpfAlu ||| bpfLsh ||| bpfK, .aluLshK),
    (bpfAlu ||| bpfLsh ||| bpfX, .aluLshX), (bpfAlu ||| bpfRsh ||| bpfK, .aluRshK),
    (bpfAlu ||| bpfRsh ||| bpfX, .aluRshX), (bpfAlu ||| bpfNeg, .aluNeg),
    (bpfLd ||| bpfW ||| bpfAbs, .ldWAbs), (bpfLd ||| bpfH ||| bpfAbs, .ldHAbs),
    (bpfLd ||| bpfB ||| bpfAbs, .ldBAbs), (bpfLd ||| bpfW ||| bpfLen, .ldWLen),
    (bpfLd ||| bpfW ||| bpfInd, .ldWInd), (bpfLd ||| bpfH ||| bpfInd, .ldHInd),
    (bpfLd ||| bpfB ||| bpfInd, .ldBInd), (bpfLd ||| bpfImm, .ldImm),
    (bpfLdx ||| bpfW ||| bpfLen, .ldxWLen), (bpfLdx ||| bpfB ||| bpfMsh, .ldxBMsh),
    (bpfLdx ||| bpfImm, .ldxImm), (bpfMisc ||| bpfTax, .miscTax), (bpfMisc ||| bpfTxa, .miscTxa),
    (bpfRet ||| bpfK, .retK), (bpfRet ||| bpfA, .retA), (bpfAlu ||| bpfDiv ||| bpfK, .aluDivK),
    (bpfLd ||| bpfMem, .ldMem), (bpfLdx ||| bpfMem, .ldxMem), (bpfSt, .st), (bpfStx, .stx),
    (bpfJmp ||| bpfJa, .jmpJa), (bpfJmp ||| bpfJeq ||| bpfK, .jmpJeqK),
    (bpfJmp ||| bpfJeq ||| bpfX, .jmpJeqX), (bpfJmp ||| bpfJge ||| bpfK, .jmpJgeK),
    (bpfJmp ||| bpfJge ||| bpfX, .jmpJgeX), (bpfJmp ||| bpfJgt ||| bpfK, .jmpJgtK),
    (bpfJmp ||| bpfJgt ||| bpfX, .jmpJgtX), (bpfJmp ||| bpfJset ||| bpfK, .jmpJsetK),
    (bpfJmp ||| bpfJset ||| bpfX, .jmpJsetX)]

/-- The offsets of the ancillary data. They are negative numbers, as 32 bits without a sign. -/
def ancillary : List (BitVec 32 × Code) :=
  [(-0x1000, .ancProtocol), (-0x1000 + 4, .ancPkttype), (-0x1000 + 8, .ancIfindex),
    (-0x1000 + 12, .ancNlattr), (-0x1000 + 16, .ancNlattrNest), (-0x1000 + 20, .ancMark),
    (-0x1000 + 24, .ancQueue), (-0x1000 + 28, .ancHatype), (-0x1000 + 32, .ancRxhash),
    (-0x1000 + 36, .ancCpu)]

structure SockFilter where
  code : ℕ
  jt : ℕ
  jf : ℕ
  k : BitVec 32

end Codes

section Check

def reciprocalValue (k : BitVec 32) : BitVec 32 :=
  BitVec.ofNat 32 ((2 ^ 32 + (k - 1).toNat) / k.toNat)

/-- The checks of one instruction and its new form. -/
def checkInsn (flen pc : ℕ) (f : SockFilter) : Except Errno SockFilter :=
  match codes.lookup f.code with
  | none => .error .einval
  | some code =>
    match code with
    | .aluDivK =>
      if f.k = 0 then .error .einval
      else .ok { f with code := code.num, k := reciprocalValue f.k }
    | .ldMem | .ldxMem | .st | .stx =>
      if f.k.toNat ≥ 16 then .error .einval else .ok { f with code := code.num }
    | .jmpJa =>
      if f.k.toNat ≥ flen - pc - 1 then .error .einval else .ok { f with code := code.num }
    | .jmpJeqK | .jmpJeqX | .jmpJgeK | .jmpJgeX | .jmpJgtK | .jmpJgtX | .jmpJsetX | .jmpJsetK =>
      if pc + f.jt + 1 ≥ flen ∨ pc + f.jf + 1 ≥ flen then .error .einval
      else .ok { f with code := code.num }
    | .ldWAbs | .ldHAbs | .ldBAbs =>
      .ok { f with code := ((ancillary.lookup f.k).getD code).num }
    | _ => .ok { f with code := code.num }

/-- The first loop of `sk_chk_filter`. -/
def checkInsns (flen : ℕ) : ℕ → List SockFilter → Except Errno (List SockFilter)
  | _, [] => .ok []
  | pc, f :: rest => do
    let f ← checkInsn flen pc f
    let rest ← checkInsns flen (pc + 1) rest
    return f :: rest

/-- The loop of `check_load_and_stores`, which keeps a bit for each cell that is surely written. -/
def checkMem : ℕ → BitVec 16 → (ℕ → BitVec 16) → List SockFilter → Except Errno Unit
  | _, _, _, [] => .ok ()
  | pc, memvalid, masks, f :: rest =>
    let memvalid := memvalid &&& masks pc
    match Code.ofNum f.code with
    | some .st | some .stx =>
        checkMem (pc + 1) (memvalid ||| (1 : BitVec 16) <<< f.k.toNat) masks rest
    | some .ldMem | some .ldxMem =>
      if memvalid &&& (1 : BitVec 16) <<< f.k.toNat = 0 then .error .einval
      else checkMem (pc + 1) memvalid masks rest
    | some .jmpJa =>
      let target := pc + 1 + f.k.toNat
      checkMem (pc + 1) (~~~0) (update masks target (masks target &&& memvalid)) rest
    | some .jmpJeqK | some .jmpJeqX | some .jmpJgeK | some .jmpJgeX | some .jmpJgtK | some .jmpJgtX
    | some .jmpJsetX | some .jmpJsetK =>
      let masks := update masks (pc + 1 + f.jt) (masks (pc + 1 + f.jt) &&& memvalid)
      let masks := update masks (pc + 1 + f.jf) (masks (pc + 1 + f.jf) &&& memvalid)
      checkMem (pc + 1) (~~~0) masks rest
    | _ => checkMem (pc + 1) memvalid masks rest

def checkLoadAndStores (alloc : Bool) (filter : List SockFilter) : Except Errno Unit :=
  if alloc then checkMem 0 0 (fun _ => 0xffff) filter else .error .enomem

/-- The rewritten program, if it is accepted. -/
def skChkFilter (alloc : Bool) (filter : List SockFilter) : Except Errno (List SockFilter) :=
  if filter.length = 0 ∨ filter.length > 4096 then .error .einval
  else do
    let filter ← checkInsns filter.length 0 filter
    match filter.getLast?.bind fun f => Code.ofNum f.code with
    | some .retK | some .retA =>
      checkLoadAndStores alloc filter
      return filter
    | _ => .error .einval

end Check

section Packet

/-- What a filter reads of `struct sk_buff`. The offsets are counted from the head of the buffer,
and the bytes behind the linear part are in `frags`. A run may be moved to another processor between
any two instructions, so `cpu` has the one that each instruction is executed by. -/
structure Skb where
  head : ℕ → BitVec 8
  data : ℕ
  tail : ℕ
  networkHeader : ℕ
  macHeader : ℕ
  len : BitVec 32
  dataLen : BitVec 32
  frags : ℕ → BitVec 8
  protocol : BitVec 16
  pktType : BitVec 32
  dev : Option (BitVec 32 × BitVec 16)
  mark : BitVec 32
  queueMapping : BitVec 16
  rxhash : BitVec 32
  cpu : ℕ → BitVec 32

/-- The bytes at an offset of the packet. -/
def skbHeaderPointer (skb : Skb) (offset size : ℕ) : Option (ℕ → BitVec 8) :=
  let headlen := (skb.len - skb.dataLen).toNat
  if offset + size ≤ headlen then some fun i => skb.head (skb.data + offset + i)
  else if offset + size ≤ skb.len.toNat then
    some fun i =>
      if offset + i < headlen then skb.head (skb.data + offset + i) else skb.frags (offset + i)
  else none

/-- Negative offsets are relative to the headers. -/
def loadPointer (skb : Skb) (k : ℤ) (size : ℕ) : Option (ℕ → BitVec 8) :=
  if 0 ≤ k then skbHeaderPointer skb k.toNat size
  else if -0x200000 ≤ k then
    let ptr := if -0x100000 ≤ k then skb.networkHeader + (k + 0x100000)
      else skb.macHeader + (k + 0x200000)
    if ptr.toNat + size ≤ skb.tail then some fun i => skb.head (ptr.toNat + i) else none
  else none

def getBe32 (b : ℕ → BitVec 8) : BitVec 32 := b 0 ++ b 1 ++ b 2 ++ b 3
def getBe16 (b : ℕ → BitVec 8) : BitVec 32 := (b 0 ++ b 1).setWidth 32
def getByte (b : ℕ → BitVec 8) : BitVec 32 := (b 0).setWidth 32

/-- The two fields of `struct nlattr`, at an offset from the data of the packet. -/
def nlaLen (skb : Skb) (pos : ℕ) : ℕ :=
  (skb.head (skb.data + pos + 1) ++ skb.head (skb.data + pos)).toNat

def nlaType (skb : Skb) (pos : ℕ) : ℕ :=
  (skb.head (skb.data + pos + 3) ++ skb.head (skb.data + pos + 2)).toNat &&& 0x3fff

/-- `nla_find`, as the offset of the attribute. -/
def nlaFind (skb : Skb) (pos : ℕ) (rem attrtype : ℤ) : Option ℕ :=
  if h : 4 ≤ rem ∧ 4 ≤ nlaLen skb pos ∧ nlaLen skb pos ≤ rem then
    if nlaType skb pos = attrtype then some pos
    else
      let totlen := (nlaLen skb pos + 3) / 4 * 4
      nlaFind skb (pos + totlen) (rem - totlen) attrtype
  else none
termination_by rem.toNat
decreasing_by omega

end Packet

section Run

/-- The machine. `written` is not part of the program: it has the cells that were stored to. -/
structure Machine where
  pc : ℕ
  A : BitVec 32
  X : BitVec 32
  mem : ℕ → BitVec 32
  written : ℕ → Bool

inductive Fault where
  | leftFilter
  | unknownCode
  | noSuchCell
  | cellNotWritten
  | dividedByZero

inductive Outcome where
  | next (s : Machine)
  | ret (v : BitVec 32)
  | fault (f : Fault)

def Machine.setA (s : Machine) (v : BitVec 32) : Outcome := .next { s with pc := s.pc + 1, A := v }

def Machine.setX (s : Machine) (v : BitVec 32) : Outcome := .next { s with pc := s.pc + 1, X := v }

/-- `fentry += off`, and on to the next instruction. -/
def Machine.jump (s : Machine) (off : ℕ) : Outcome := .next { s with pc := s.pc + off + 1 }

def Machine.load (s : Machine) (k : ℕ) (f : BitVec 32 → Outcome) : Outcome :=
  if k ≥ 16 then .fault .noSuchCell
  else if s.written k then f (s.mem k)
  else .fault .cellNotWritten

def Machine.store (s : Machine) (k : ℕ) (v : BitVec 32) : Outcome :=
  if k ≥ 16 then .fault .noSuchCell
  else .next { s with
    pc := s.pc + 1, mem := update s.mem k v, written := update s.written k true }

/-- A load from the packet, or the end of the run if it is too short. -/
def loadA (s : Machine) (skb : Skb) (k : BitVec 32) (size : ℕ) (get : (ℕ → BitVec 8) → BitVec 32) :
    Outcome :=
  match loadPointer skb k.toInt size with
  | some b => s.setA (get b)
  | none => .ret 0

/-- A division of the processor. -/
def divide (s : Machine) (x : BitVec 32) : Outcome :=
  if x = 0 then .fault .dividedByZero else s.setA (s.A / x)

def reciprocalDivide (a r : BitVec 32) : BitVec 32 := BitVec.ofNat 32 (a.toNat * r.toNat / 2 ^ 32)

/-- One instruction of `sk_run_filter`. Shifts are by the low five bits, as on x86. -/
def exec (skb : Skb) (f : SockFilter) (s : Machine) : Code → Outcome
  | .aluAddX => s.setA (s.A + s.X)
  | .aluAddK => s.setA (s.A + f.k)
  | .aluSubX => s.setA (s.A - s.X)
  | .aluSubK => s.setA (s.A - f.k)
  | .aluMulX => s.setA (s.A * s.X)
  | .aluMulK => s.setA (s.A * f.k)
  | .aluDivX => if s.X = 0 then .ret 0 else divide s s.X
  | .aluDivK => s.setA (reciprocalDivide s.A f.k)
  | .aluAndX => s.setA (s.A &&& s.X)
  | .aluAndK => s.setA (s.A &&& f.k)
  | .aluOrX => s.setA (s.A ||| s.X)
  | .aluOrK => s.setA (s.A ||| f.k)
  | .aluLshX => s.setA (s.A <<< (s.X.toNat % 32))
  | .aluLshK => s.setA (s.A <<< (f.k.toNat % 32))
  | .aluRshX => s.setA (s.A >>> (s.X.toNat % 32))
  | .aluRshK => s.setA (s.A >>> (f.k.toNat % 32))
  | .aluNeg => s.setA (-s.A)
  | .jmpJa => s.jump f.k.toNat
  | .jmpJgtK => s.jump (if s.A > f.k then f.jt else f.jf)
  | .jmpJgeK => s.jump (if s.A ≥ f.k then f.jt else f.jf)
  | .jmpJeqK => s.jump (if s.A = f.k then f.jt else f.jf)
  | .jmpJsetK => s.jump (if s.A &&& f.k ≠ 0 then f.jt else f.jf)
  | .jmpJgtX => s.jump (if s.A > s.X then f.jt else f.jf)
  | .jmpJgeX => s.jump (if s.A ≥ s.X then f.jt else f.jf)
  | .jmpJeqX => s.jump (if s.A = s.X then f.jt else f.jf)
  | .jmpJsetX => s.jump (if s.A &&& s.X ≠ 0 then f.jt else f.jf)
  | .ldWAbs => loadA s skb f.k 4 getBe32
  | .ldHAbs => loadA s skb f.k 2 getBe16
  | .ldBAbs => loadA s skb f.k 1 getByte
  | .ldWLen => s.setA skb.len
  | .ldxWLen => s.setX skb.len
  | .ldWInd => loadA s skb (s.X + f.k) 4 getBe32
  | .ldHInd => loadA s skb (s.X + f.k) 2 getBe16
  | .ldBInd => loadA s skb (s.X + f.k) 1 getByte
  | .ldxBMsh =>
    match loadPointer skb f.k.toInt 1 with
    | some b => s.setX ((getByte b &&& 0xf) <<< 2)
    | none => .ret 0
  | .ldImm => s.setA f.k
  | .ldxImm => s.setX f.k
  | .ldMem => s.load f.k.toNat s.setA
  | .ldxMem => s.load f.k.toNat s.setX
  | .miscTax => s.setX s.A
  | .miscTxa => s.setA s.X
  | .retK => .ret f.k
  | .retA => .ret s.A
  | .st => s.store f.k.toNat s.A
  | .stx => s.store f.k.toNat s.X
  | .ancProtocol =>
    s.setA ((skb.protocol.extractLsb' 0 8 ++ skb.protocol.extractLsb' 8 8).setWidth 32)
  | .ancPkttype => s.setA skb.pktType
  | .ancIfindex =>
    match skb.dev with
    | none => .ret 0
    | some dev => s.setA dev.1
  | .ancMark => s.setA skb.mark
  | .ancQueue => s.setA (skb.queueMapping.setWidth 32)
  | .ancHatype =>
    match skb.dev with
    | none => .ret 0
    | some dev => s.setA (dev.2.setWidth 32)
  | .ancRxhash => s.setA skb.rxhash
  | .ancCpu => s.setA (skb.cpu s.pc)
  | .ancNlattr =>
    if skb.dataLen ≠ 0 then .ret 0
    -- the difference is one of 64 bits
    else if s.A.toNat > (skb.len.toNat + 2 ^ 64 - 4) % 2 ^ 64 then .ret 0
    else
      s.setA (BitVec.ofNat 32
        ((nlaFind skb s.A.toNat (skb.len - s.A).toInt s.X.toInt).getD 0))
  | .ancNlattrNest =>
    if skb.dataLen ≠ 0 then .ret 0
    else if s.A.toNat > (skb.len.toNat + 2 ^ 64 - 4) % 2 ^ 64 then .ret 0
    else if nlaLen skb s.A.toNat > (s.A - skb.len).toNat then .ret 0
    else
      s.setA (BitVec.ofNat 32
        ((nlaFind skb (s.A.toNat + 4) (nlaLen skb s.A.toNat - 4) s.X.toInt).getD 0))

def step (filter : List SockFilter) (skb : Skb) (s : Machine) : Outcome :=
  match filter[s.pc]? with
  | none => .fault .leftFilter
  | some f =>
    match Code.ofNum f.code with
    | none => .fault .unknownCode
    | some code => exec skb f s code

/-- The run with a number of instructions, if it ends. -/
def run (filter : List SockFilter) (skb : Skb) : ℕ → Machine → Option (Except Fault (BitVec 32))
  | 0, _ => none
  | n + 1, s =>
    match step filter skb s with
    | .next s => run filter skb n s
    | .ret v => some (.ok v)
    | .fault f => some (.error f)

/-- The memory is not cleared before a run. -/
def start (mem : ℕ → BitVec 32) : Machine := ⟨0, 0, 0, mem, fun _ => false⟩

/-- `sk_run_filter`, with the memory as it happens to be and a bound for the instructions. -/
def skRunFilter (n : ℕ) (filter : List SockFilter) (skb : Skb) (mem : ℕ → BitVec 32) :
    Option (Except Fault (BitVec 32)) :=
  run filter skb n (start mem)

end Run

end LinuxKernel.Filter
