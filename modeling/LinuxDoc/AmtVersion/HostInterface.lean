import LinuxDoc.Foundations.Bytes

/-! The AMT host interface of mei-amt-version: one request, its reply, and the checks the
reply must pass before its version table is copied and printed.
-/

namespace LinuxDoc.AmtVersion

open Foundations

def statusSuccess : Nat := 0x0

def statusInternalError : Nat := 0x1

def statusEmptyResponse : Nat := 0x4000

def statusSdkResources : Nat := 0x1004

def amtMajorVersion : Nat := 1
def amtMinorVersion : Nat := 1
def amtBiosVersionLen : Nat := 65
def amtVersionsNumber : Nat := 50
def amtUnicodeStringLen : Nat := 20

def codeVersionsResponse : Nat := 0x0480001A

def sizeofMsgHeader : Nat := 12

def sizeofRespHeader : Nat := 16

def sizeofVersionType : Nat := 2 * (2 + amtUnicodeStringLen)

def versionsOffset : Nat := amtBiosVersionLen + 4

def sizeofCodeVersions : Nat := versionsOffset + amtVersionsNumber * sizeofVersionType

/-- A buffer and whatever memory follows it, by offset from its start. -/
abbrev Buffer := Nat → UInt8

def entryOffset (i : Nat) : Nat :=
  sizeofRespHeader + versionsOffset + sizeofVersionType * i

section Fields

variable (host : Endian) (buffer : Buffer)

def word (offset size : Nat) : Nat :=
  host.load (fun i => buffer (offset + i)) size

def headerLength : Nat :=
  word host buffer 8 4

def codeCount : Nat :=
  word host buffer (sizeofRespHeader + amtBiosVersionLen) 4

end Fields

def fieldReads (offset size : Nat) : List Nat :=
  (List.range size).map (offset + ·)

section Validation

variable (host : Endian)

/-- `ver_type_cnt`: the subtractions are 64 bits wide, their result is stored in 32. -/
def verTypeCnt (length : Nat) : BitVec 32 :=
  let codeVerLen : BitVec 64 := BitVec.ofNat 64 length - 4
  (codeVerLen - BitVec.ofNat 64 amtBiosVersionLen - 4).setWidth 32

def countMatches (buffer : Buffer) : Bool :=
  codeCount host buffer == (verTypeCnt (headerLength host buffer)).toNat / sizeofVersionType

structure Verdict where
  status : Nat
  reads : List Nat

def verifyEntry (buffer : Buffer) (entry : Nat) : Verdict :=
  let description := fieldReads entry 2
  if word host buffer entry 2 > amtUnicodeStringLen then ⟨statusInternalError, description⟩
  else
    let string := entry + 24
    let len := word host buffer (entry + 22) 2
    let version := description ++ fieldReads (entry + 22) 2 ++ [string + len]
    if buffer (string + len) ≠ 0 then ⟨statusInternalError, version⟩
    else
      -- A NUL is known at `len`, so `strlen` stops there or before.
      let length := strlen (fun i => buffer (string + i)) len
      let scanned := version ++ fieldReads string (length + 1)
      if len ≠ length then ⟨statusInternalError, scanned⟩ else ⟨statusSuccess, scanned⟩

def verifyVersions (buffer : Buffer) : Nat → Nat → Verdict
  | 0, _ => ⟨statusSuccess, []⟩
  | remaining + 1, i =>
      let entry := verifyEntry host buffer (entryOffset i)
      if entry.status ≠ statusSuccess then entry
      else
        let rest := verifyVersions buffer remaining (i + 1)
        ⟨rest.status, entry.reads ++ rest.reads⟩

def amtVerifyCodeVersions (buffer : Buffer) : Verdict :=
  let header := fieldReads 8 4 ++ fieldReads (sizeofRespHeader + amtBiosVersionLen) 4
  if countMatches host buffer = false then ⟨statusInternalError, header⟩
  else
    let versions := verifyVersions host buffer (codeCount host buffer) 0
    ⟨versions.status, header ++ versions.reads⟩

def amtVerifyResponseHeader (command : Nat) (buffer : Buffer) (responseSize : Nat) : Nat :=
  if responseSize < sizeofRespHeader then statusInternalError
  else if responseSize ≠ headerLength host buffer + sizeofMsgHeader then statusInternalError
  else if word host buffer 4 4 ≠ command then statusInternalError
  else if word host buffer 2 2 ≠ 0 then statusInternalError
  else if (buffer 0).toNat ≠ amtMajorVersion ∨ (buffer 1).toNat < amtMinorVersion then
    statusInternalError
  else statusSuccess

end Validation

/-- The receive buffer after a read: what was received, then the zeros it was cleared to,
then the memory behind it.
-/
def receiveBuffer (bufSize received : Nat) (content heap : Buffer) : Buffer :=
  fun i => if i < received then content i else if i < bufSize then 0 else heap i

structure Exchange where
  bufSize : Nat
  bounded : bufSize < 2 ^ 32
  allocated : Bool
  write : Int
  errno : Nat
  select : Int
  isSet : Bool
  read : Int
  readFits : read ≤ bufSize
  content : Buffer
  heap : Buffer

namespace Exchange

variable (host : Endian) (exchange : Exchange)

def received : Nat :=
  exchange.read.toNat

def buffer : Buffer :=
  receiveBuffer exchange.bufSize exchange.received exchange.content exchange.heap

def meiSendMsg : Int :=
  if exchange.write < 0 then -exchange.errno
  else if exchange.select > 0 ∧ exchange.isSet = true then exchange.write
  else exchange.select

/-- The result of `mei_recv_msg`, stored in the unsigned `out_buf_sz`. -/
def outBufSz : Nat :=
  (exchange.read % 2 ^ 32).toNat

def amtHostIfCall (rcmd expectedSz : Nat) : Nat :=
  if exchange.allocated = false then statusSdkResources
  else if exchange.meiSendMsg ≠ sizeofMsgHeader then statusInternalError
  else if exchange.outBufSz ≤ 0 then statusEmptyResponse
  else if word host exchange.buffer 12 4 ≠ statusSuccess then word host exchange.buffer 12 4
  else if amtVerifyResponseHeader host rcmd exchange.buffer exchange.outBufSz ≠ statusSuccess then
    amtVerifyResponseHeader host rcmd exchange.buffer exchange.outBufSz
  else if expectedSz ≠ 0 ∧ expectedSz ≠ exchange.outBufSz then statusInternalError
  else statusSuccess

def copyVersions (versions : Buffer) : Buffer :=
  fun i => if i < sizeofCodeVersions then exchange.buffer (sizeofRespHeader + i) else versions i

def amtGetCodeVersions (versions : Buffer) : Nat × Buffer :=
  let status := exchange.amtHostIfCall host codeVersionsResponse 0
  if status ≠ statusSuccess then (status, versions)
  else
    let status := (amtVerifyCodeVersions host exchange.buffer).status
    if status ≠ statusSuccess then (status, versions)
    else (status, exchange.copyVersions versions)

end Exchange

/-- The offsets of `ver` that the printing loop of `main` reads: each string up to its NUL,
wherever that is.
-/
def PrintReads (host : Endian) (ver : Buffer) (index : Nat) : Prop :=
  ∃ i < word host ver amtBiosVersionLen 4,
    ∃ field ∈ [2, 24], ∃ k, index = versionsOffset + sizeofVersionType * i + field + k
      ∧ ∀ j < k, ver (versionsOffset + sizeofVersionType * i + field + j) ≠ 0

end LinuxDoc.AmtVersion
