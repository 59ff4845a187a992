/-
  HieraChain/BinLogHandler.lean
  =============================
  **The binary log of the committed blocks** (`libstorage/BinLogHandler.h`,
  `.cpp`) **and the recovery from it** (`DBInitializer::recoverFromBinaryLog`).

  A file holds a version and one record for each block: the length, the number,
  the tables and a CRC32, which is written and never checked.  A file is named by
  the number of its first block, so the directory here is a map from numbers to
  contents, and the descending walk over the files reads it backwards.

  `none` stands for an exception, for the end of the process (`LOG(FATAL)`), and
  for a read outside the buffer of a block.  Opening, writing and the check of the
  free space succeed.  The hosts are little endian.
-/
import HieraChain.Hex
import HieraChain.MemoryTableFactory2
import HieraChain.RecordFile
import HieraChain.Wire

namespace HieraChain.BinLog

open HieraChain.BigEndian HieraChain.Storage HieraChain.Wire

def BINLOG_VERSION : Nat := 1

/-- `sizeof(BINLOG_VERSION)`. -/
def versionSize : Nat := 4

def comma : UInt8 := UInt8.ofNat ','.toNat

/-- A `uint64_t` read into an `int64_t`. -/
def toInt64 (n : Nat) : Int := Int.bmod n (2 ^ 64)

/-! ### Writing a block -/

def writeUINT32 (ui : Nat) : Bytes := pushInt ui 4

def writeUINT64 (ui : Int) : Bytes := pushInt (ui % 2 ^ 64).toNat 8

def writeString (str : Bytes) : Bytes := writeUINT32 str.length ++ str

/-- The columns that the loops over `vecField` do not skip. -/
def columns (vecField : List Bytes) : List Bytes :=
  vecField.filter fun key => !(key == STATUS || key == NUM_FIELD || key == ID_FIELD)

/-- `int flagSize`; below three columns the subtraction wraps and the cast gives zero. -/
def flagSize (vecField : List Bytes) : Nat :=
  if vecField.length < 3 then 0 else (vecField.length - 3) / 8 + 1

/-- `usedFlag[KeyIdx / 8] |= 1 << (7 - KeyIdx % 8)`. -/
def setFlag (usedFlag : Bytes) (keyIdx : Nat) : Bytes :=
  usedFlag.modify (keyIdx / 8) fun b => b ||| 1 <<< UInt8.ofNat (7 - keyIdx % 8)

/-- The flags of the columns that an entry has, from the column `keyIdx` on. -/
def setFlags (e : Entry) : List Bytes → Nat → Bytes → Bytes
  | [], _, usedFlag => usedFlag
  | key :: keys, keyIdx, usedFlag =>
    setFlags e keys (keyIdx + 1)
      (if e.fields.contains key then setFlag usedFlag keyIdx else usedFlag)

def writeFields (e : Entry) (keys : List Bytes) : Bytes :=
  keys.flatMap fun key => ((e.fields.find? key).map writeString).getD []

def encodeEntry (vecField : List Bytes) (e : Entry) : Bytes :=
  writeUINT64 e.id
    ++ (MemoryTable2.statusByte e
      :: (setFlags e (columns vecField) 0 (List.replicate (flagSize vecField) 0)
        ++ writeFields e (columns vecField)))

def encodeEntries (vecField : List Bytes) (entries : List Entry) : Bytes :=
  writeUINT32 entries.length ++ entries.flatMap (encodeEntry vecField)

/-- The key and the other fields, in the order in which they are written. -/
def vecFieldOf (info : TableInfo) : List Bytes :=
  info.key :: info.fields.filter fun field => field ≠ info.key

def encodeTable (table : TableData) : Bytes :=
  let vecField := vecFieldOf table.info
  pushInt table.info.name.length 1 ++ table.info.name
    ++ (writeString ([comma].intercalate vecField)
      ++ (encodeEntries vecField table.dirtyEntries ++ encodeEntries vecField table.newEntries))

def encodePayload (crc32 : Bytes → Nat) (num : Int) (datas : List TableData) : Bytes :=
  let block := writeUINT64 num ++ (writeUINT32 datas.length ++ datas.flatMap encodeTable)
  block ++ writeUINT32 (crc32 block)

def encodeBlock (crc32 : Bytes → Nat) (num : Int) (datas : List TableData) : Bytes :=
  let buffer := encodePayload crc32 num datas
  writeUINT32 buffer.length ++ buffer

/-! ### Reading a block -/

/-- `(usedFlag[fieldIdx / 8] >> (7 - fieldIdx % 8)) & 1`. -/
def hasFlag (usedFlag : Bytes) (fieldIdx : Nat) : Option Bool :=
  (usedFlag[fieldIdx / 8]?).map fun b => (b >>> UInt8.ofNat (7 - fieldIdx % 8)) &&& 1 != 0

def decodeFields (usedFlag : Bytes) : List Bytes → Nat → Entry → Reader Entry
  | [], _, e => return e
  | key :: keys, fieldIdx, e =>
    match hasFlag usedFlag fieldIdx with
    | none => failure
    | some false => decodeFields usedFlag keys (fieldIdx + 1) e
    | some true => do
      let value ← counted 4
      decodeFields usedFlag keys (fieldIdx + 1) (e.setField key value)

def decodeEntry (vecField : List Bytes) (force : Bool) : Reader Entry := do
  let id ← integer 8
  let status ← integer 1
  let usedFlag ← chunk (flagSize vecField)
  decodeFields usedFlag (columns vecField) 0 { id, status, force }

def decodeEntries (vecField : List Bytes) (force : Bool) : Reader (List Entry) := do
  let entryCount ← integer 4
  repeated (decodeEntry vecField force) entryCount

/-- `boost::split` at commas with `token_compress_on`: commas side by side are one. -/
def splitFields (fields : Bytes) : List Bytes :=
  match fields.splitOn comma with
  | [] => []
  | first :: rest => first :: (rest.dropLast.filter (fun field => field ≠ []) ++ rest.getLast?.toList)

def decodeTable : Reader TableInfo := do
  let name ← counted 1
  let fields ← counted 4
  match splitFields fields with
  | [] => failure
  | key :: fields => return { name, key, fields }

def forced (info : TableInfo) : Bool :=
  decide (info.name = SYS_BLOCK_2_NONCES ∨ info.name = SYS_HASH_2_BLOCK)

def decodeData : Reader TableData := do
  let info ← decodeTable
  let vecField := info.key :: info.fields
  let dirtyEntries ← decodeEntries vecField (forced info)
  let newEntries ← decodeEntries vecField (forced info)
  return { info, dirtyEntries, newEntries }

inductive DecodeBlockResult
  | Success
  | LessThanSpecifiedRange
  | GreaterThanSpecifiedRange
  | BlockDataLengthError
  deriving DecidableEq, Repr

def blockReader (startNum endNum : Int) : Reader (DecodeBlockResult × Int × List TableData) := do
  let binLogNum ← integer 8
  if toInt64 binLogNum ≤ startNum then return (.LessThanSpecifiedRange, toInt64 binLogNum, [])
  else if endNum < toInt64 binLogNum then return (.GreaterThanSpecifiedRange, toInt64 binLogNum, [])
  else
    let dataSize ← integer 4
    let datas ← repeated decodeData dataSize
    let rest ← remaining
    -- The remaining four bytes are the CRC32.
    if rest.length = 4 then return (.Success, toInt64 binLogNum, datas)
    else return (.BlockDataLengthError, toInt64 binLogNum, datas)

def decodeBlock (buffer : Bytes) (startNum endNum : Int) :
    Option (DecodeBlockResult × Int × List TableData) :=
  (blockReader startNum endNum buffer).map Prod.fst

/-! ### Files -/

abbrev Directory := SortedMap Int Bytes

/-- `write` at an offset of a file, which keeps the bytes behind what is written. -/
def Directory.write (d : Directory) (name : Int) (position : Nat) (buffer : Bytes) : Directory :=
  let content := (d.find? name).getD []
  d.insert name (content.take position ++ buffer ++ content.drop (position + buffer.length))

structure Config where
  m_binarylogSize : Nat
  /-- The path of the log is relative. -/
  relative : Bool
  crc32 : Bytes → Nat

/-- `position` is the offset of the open file `m_fd`. -/
structure BinLogHandler where
  m_writtenBytesLength : Nat := 0
  m_fd : Int := 0
  position : Nat := 0
  deriving DecidableEq, Repr

/-- `O_CREAT` without `O_TRUNC`: an old file of the name keeps its bytes. -/
def initNewBinaryFile (d : Directory) (num : Int) : Directory × BinLogHandler :=
  (d.write num 0 (writeUINT32 BINLOG_VERSION),
    { m_writtenBytesLength := versionSize, m_fd := num, position := versionSize })

/-- The condition for a new file: the first write, or no room for the block. -/
def BinLogHandler.needsNewFile (c : Config) (h : BinLogHandler) (buffer : Bytes) : Bool :=
  decide (h.m_writtenBytesLength = 0 ∨ c.m_binarylogSize < h.m_writtenBytesLength + buffer.length)

def BinLogHandler.writeBuffer (h : BinLogHandler) (d : Directory) (buffer : Bytes) :
    Directory × BinLogHandler :=
  (d.write h.m_fd h.position buffer,
    { m_writtenBytesLength := (h.m_writtenBytesLength + buffer.length) % 2 ^ 32
      m_fd := h.m_fd
      position := h.position + buffer.length })

def writeBlocktoBinLog (c : Config) (d : Directory) (h : BinLogHandler) (num : Int)
    (datas : List TableData) : Directory × BinLogHandler :=
  let buffer := encodeBlock c.crc32 num datas
  let file := if h.needsNewFile c buffer then initNewBinaryFile d num else (d, h)
  file.2.writeBuffer file.1 buffer

/-- `checkBinLogSize`: the path that is removed begins with the current path, so
    files under an absolute path stay. -/
def checkBinLogSize (c : Config) (d : Directory) : Directory :=
  d.filterMap fun _ content =>
    if content.length ≤ versionSize ∧ c.relative then none else some content

/-- `(uint32_t)binlog.file.tellg()`. -/
def fileLength (content : Bytes) : Nat := content.length % 2 ^ 32

def getFirstBlockNumInBinLog (content : Bytes) : Int :=
  if fileLength content < versionSize then -1
  else if content.length < 16 then -1
  else toInt64 (fromBigEndian ((content.drop 8).take 8))

/-- The loop of `getLastBlockNum` from an offset.  A number that is cut short
    leaves its bytes in the low end of `blockNum`. -/
def lastBlockLoop (content : Bytes) : Nat → Nat → Nat → Int
  | 0, _, blockNum => toInt64 blockNum
  | fuel + 1, offset, blockNum =>
    if offset < fileLength content then
      let rest := content.drop offset
      if rest.length < 4 then -1
      else
        let blockLen := fromBigEndian (rest.take 4)
        if fileLength content < offset + 4 + blockLen then toInt64 blockNum
        else
          let number := (rest.drop 4).take 8
          if number.length < 8 then
            toInt64 (fromBigEndian number.reverse
              + blockNum / 256 ^ number.length * 256 ^ number.length)
          else lastBlockLoop content fuel (offset + 4 + blockLen) (fromBigEndian number)
    else toInt64 blockNum

def getLastBlockNum (d : Directory) : Option Int :=
  match d.entries.getLast? with
  | none => some (-1)
  | some (name, content) =>
    if getFirstBlockNumInBinLog content ≠ name then none
    else if fileLength content < versionSize then some (-1)
    else some (lastBlockLoop content (content.length + 1) versionSize 0)

abbrev BlockDataMap := SortedMap Int (List TableData)

/-- `getBlockData` from an offset: the blocks read, and whether all records were. -/
def getBlockData (content : Bytes) (startNum endNum : Int) :
    Nat → Nat → BlockDataMap → Option (BlockDataMap × Bool)
  | 0, _, blocksData => some (blocksData, true)
  | fuel + 1, offset, blocksData =>
    if offset < fileLength content then
      let rest := content.drop offset
      if rest.length < 4 then some (blocksData, false)
      else
        let blockLen := fromBigEndian (rest.take 4)
        let offset := (offset + 4) % 2 ^ 32
        if fileLength content < (offset + blockLen) % 2 ^ 32 then some (blocksData, false)
        else
          let buffer := (rest.drop 4).take blockLen
          if buffer.length ≠ blockLen then some (blocksData, false)
          else
            match decodeBlock buffer startNum endNum with
            | none => none
            | some (.Success, num, datas) =>
              getBlockData content startNum endNum fuel ((offset + blockLen) % 2 ^ 32)
                (blocksData.insert num datas)
            | some (.LessThanSpecifiedRange, _, _) =>
              getBlockData content startNum endNum fuel ((offset + blockLen) % 2 ^ 32) blocksData
            | some (.GreaterThanSpecifiedRange, _, _) => some (blocksData, true)
            | some (.BlockDataLengthError, _, _) => some (blocksData, false)
    else some (blocksData, true)

def readBinLog (content : Bytes) (startNum endNum : Int) (blocksData : BlockDataMap) :
    Option (BlockDataMap × Bool) :=
  if fileLength content < versionSize then some (blocksData, false)
  else if fromBigEndian (content.take 4) = BINLOG_VERSION then
    getBlockData content startNum endNum (content.length + 1) versionSize blocksData
  else some (blocksData, false)

def missingLoop (startNum endNum : Int) : List (Int × Bytes) → BlockDataMap → Option BlockDataMap
  | [], blocksData => some blocksData
  | (name, content) :: files, blocksData =>
    if getFirstBlockNumInBinLog content ≠ name then none
    else if endNum < getFirstBlockNumInBinLog content then missingLoop startNum endNum files blocksData
    else do
      let (blocksData, _) ← readBinLog content startNum endNum blocksData
      if name ≤ startNum then some blocksData
      else missingLoop startNum endNum files blocksData

def getMissingBlocksFromBinLog (d : Directory) (startNum endNum : Int) : Option BlockDataMap :=
  if endNum ≤ startNum then some SortedMap.empty
  else missingLoop startNum endNum d.entries.reverse SortedMap.empty

/-! ### Recovery -/

abbrev Commit := Int × List TableData

/-- The hash that recovery reads from the data, which it uses for nothing else. -/
def blockHash (blockData : List TableData) : Option Bytes :=
  match blockData.find? fun data => data.info.name = SYS_NUMBER_2_HASH with
  | none => some (List.replicate 32 0)
  | some data =>
    match data.newEntries with
    | [] => none
    | entry :: _ => Hex.fixedHash 32 (entry.getField SYS_VALUE)

def recoverBlock (blocksData : BlockDataMap) (num : Int) : Option Commit := do
  let blockData ← blocksData.find? num
  if blockData = [] then none
  else
    let _ ← blockHash blockData
    some (num, blockData)

def interval : Int := 100

/-- The windows of `recoverFromBinaryLog` from `num` on. -/
def recoverWindows (d : Directory) (lastBlockNum : Int) : Nat → Int → Option (List Commit)
  | 0, _ => some []
  | fuel + 1, num =>
    if num ≤ lastBlockNum then do
      let blocksData ← getMissingBlocksFromBinLog d num (num + interval)
      let commits ← (List.range blocksData.size).mapM fun i : Nat => recoverBlock blocksData (num + (i + 1))
      let more ← recoverWindows d lastBlockNum fuel (num + interval)
      some (commits ++ more)
    else some []

/-- The commits to a backend whose block number is `startNum`. -/
def recoverFromBinaryLog (d : Directory) (startNum : Int) : Option (List Commit) := do
  let lastBlockNum ← getLastBlockNum d
  if lastBlockNum ≤ startNum then some []
  else recoverWindows d lastBlockNum ((lastBlockNum - startNum).toNat + 1) startNum

end HieraChain.BinLog
