import CarbonRelay.Lib.Fnv1a
import CarbonRelay.Server.Basic

/-!
# The consistent-hash rings

The model of `consistent-hash.c`: how a ring is filled (`chNew`, `chAddnode`) and how the servers of
a metric are looked up in it (`chGetNodes`). The position of a key is a parameter `hashpos`, which
stands for `carbon_hashpos` (MD5) and `fnv1a_hashpos`; `qsort` is the sorting routine of the C
library. The entries are the written part of the source's array, so `entrycnt` is their number; the
one cell behind them that the search may read holds the arbitrary value `past`. The search and the
walk around the ring are loops without a bound in the source and take `fuel` here.
-/

namespace CarbonRelay

/-- `consistent-hash.h ch_type`. -/
inductive ChType
  | carbon
  | fnv1a
  | jumpFnv1a
  deriving DecidableEq, Repr

/-- `consistent-hash.c:39 ch_ring_entry`. -/
structure ChRingEntry where
  pos : Nat
  server : Server
  deriving DecidableEq, Repr

/-- `consistent-hash.c:44 struct _ch_ring`. -/
structure ChRing where
  type : ChType
  hashReplicas : Nat
  entrylist : List ChRingEntry
  entrysize : Nat
  deriving DecidableEq, Repr

/-- `router.h CONN_DESTS_SIZE`. -/
def connDestsSize : Nat := 64

/-- `HASH_REPLICAS`, or one entry for each server of a jump hash. -/
def ChType.hashReplicas : ChType → Nat
  | .carbon | .fnv1a => 100
  | .jumpFnv1a => 1

/-- `consistent-hash.c:203 ch_new`. -/
def chNew (type : ChType) (servercnt : Nat) : Option ChRing :=
  if connDestsSize < servercnt then none
  else some
    { type
      hashReplicas := type.hashReplicas
      entrylist := []
      entrysize := type.hashReplicas * servercnt }

/-! ## The order of the entries -/

/-- `consistent-hash.c:108 entrycmp_carbon`. -/
def entrycmpCarbon (l r : ChRingEntry) : Int :=
  if l.pos ≠ r.pos then (l.pos : Int) - r.pos
  else if Text.strcmp l.server.ip r.server.ip ≠ 0 then Text.strcmp l.server.ip r.server.ip
  else
    match l.server.inst, r.server.inst with
    | none, none => 0
    | none, some _ => 1
    | some _, none => -1
    | some i, some j => Text.strcmp i j

/-- `consistent-hash.c:142 entrycmp_fnv1a`. -/
def entrycmpFnv1a (l r : ChRingEntry) : Int :=
  if l.pos ≠ r.pos then (l.pos : Int) - r.pos
  else if Text.strcmp l.server.ip r.server.ip ≠ 0 then Text.strcmp l.server.ip r.server.ip
  else (l.server.port : Int) - r.server.port

/-- `consistent-hash.c:165 entrycmp_jump_fnv1a`. The difference of the two numbers is truncated to
an `int`. -/
def entrycmpJumpFnv1a (l r : ChRingEntry) : Int :=
  match l.server.inst, r.server.inst with
  | none, none => (l.pos : Int) - r.pos
  | none, some _ => 1
  | some _, none => -1
  | some i, some j =>
    let (vl, endl) := Text.strtol i
    let (vr, endr) := Text.strtol j
    if endl = [] ∧ endr = [] then Int.bmod (vl - vr) (2 ^ 32) else Text.strcmp i j

/-- The comparator `ch_addnode` gives to `qsort`. -/
def ChType.entrycmp : ChType → ChRingEntry → ChRingEntry → Int
  | .carbon => entrycmpCarbon
  | .fnv1a => entrycmpFnv1a
  | .jumpFnv1a => entrycmpJumpFnv1a

/-! ## Filling the ring -/

/-- The buffer of 256 bytes that `ch_addnode` prints the key of replica `i` into. -/
def chKey (type : ChType) (s : Server) (i : Nat) : Text :=
  List.take 255 <|
    match type, s.inst with
    | .carbon, none => "('".toList ++ s.ip ++ "', None):".toList ++ Text.decimal i
    | .carbon, some inst =>
      "('".toList ++ s.ip ++ "', '".toList ++ inst ++ "'):".toList ++ Text.decimal i
    | _, none => Text.decimal i ++ ['-'] ++ s.ip ++ [':'] ++ Text.decimal s.port
    | _, some inst => Text.decimal i ++ ['-'] ++ inst

/-- The entries `ch_addnode` writes for a server when `cnt` entries are in the ring. -/
def chEntries (hashpos : ChType → Text → Nat) (type : ChType) (cnt : Nat) (s : Server) :
    List ChRingEntry :=
  match type with
  | .jumpFnv1a => [⟨cnt, s⟩]
  | _ => (List.range type.hashReplicas).map fun i => ⟨hashpos type (chKey type s i), s⟩

/-- The loop over a sorted entry list that gives an entry the server of the entry before it when
both are at one position. -/
def overwriteFrom : ChRingEntry → List ChRingEntry → List ChRingEntry
  | e, [] => [e]
  | e, e' :: l =>
    e :: overwriteFrom (if e.pos = e'.pos then { e' with server := e.server } else e') l

/-- `consistent-hash.c:308`, "overwrite successive duplicates with the first entry". -/
def overwriteDuplicates : List ChRingEntry → List ChRingEntry
  | [] => []
  | e :: l => overwriteFrom e l

/-- `consistent-hash.c:243 ch_addnode`. The ring is sorted when its last server is added. -/
def chAddnode (hashpos : ChType → Text → Nat)
    (qsort : (ChRingEntry → ChRingEntry → Int) → List ChRingEntry → List ChRingEntry)
    (ring : ChRing) (s : Server) : ChRing :=
  let entrylist := ring.entrylist ++ chEntries hashpos ring.type ring.entrylist.length s
  { ring with
    entrylist :=
      if entrylist.length = ring.entrysize then
        overwriteDuplicates (qsort ring.type.entrycmp entrylist)
      else entrylist }

/-! ## Looking up a metric -/

/-- The position of entry `x`; the cell behind the last entry holds `past`. -/
def posAt (entries : List ChRingEntry) (past x : Nat) : Nat :=
  match entries[x]? with
  | some e => e.pos
  | none => past

/-- `consistent-hash.c:387`, the binary search for the first entry at or after `pos`, on the range
from `i` to `j`. -/
def chSearch (entries : List ChRingEntry) (past pos : Nat) : Nat → Nat → Nat → Option Nat
  | 0, _, _ => none
  | fuel + 1, i, j =>
    let t := (i + j) / 2
    if posAt entries past t = pos then some t
    else if posAt entries past t < pos then
      if t + 1 = j then
        if posAt entries past j < pos then some (j + 1) else some j
      else chSearch entries past pos fuel t j
    else
      if i + 1 = t then
        if pos ≤ posAt entries past i then some i else some t
      else chSearch entries past pos fuel i t

/-- `consistent-hash.c:416`, the walk from entry `t` that collects servers not collected before. -/
def chWalk (entries : List ChRingEntry) (replcnt : Nat) :
    Nat → Nat → List Server → Option (List Server)
  | 0, _, _ => none
  | fuel + 1, t, ret =>
    if ret.length < replcnt then
      let t := if entries.length ≤ t then 0 else t
      match entries[t]? with
      | none => none
      | some e =>
        if e.server ∈ ret then chWalk entries replcnt fuel (t + 1) ret
        else chWalk entries replcnt fuel (t + 1) (ret ++ [e.server])
    else some ret

/-- The loop of `jump_bucketpos`, with the quotient taken exactly. -/
def jumpLoop (bckcnt : Nat) : Nat → Nat → Nat → Nat → Option Nat
  | 0, _, _, _ => none
  | fuel + 1, key, b, j =>
    if j < bckcnt then
      let key := (key * 2862933555777941757 + 1) % 2 ^ 64
      jumpLoop bckcnt fuel key j ((j + 1) * 2 ^ 31 / (key / 2 ^ 33 + 1))
    else some b

/-- `consistent-hash.c:86 jump_bucketpos`. Every turn moves `j` up, so `bckcnt` turns and the last
test are enough. -/
def jumpBucketpos (key bckcnt : Nat) : Option Nat := jumpLoop bckcnt (bckcnt + 1) key 0 0

/-- The generator that gives a new hash for the next replica of a jump hash. -/
def xorshift (hash : Nat) : Nat :=
  let hash := hash ^^^ (hash >>> 12)
  let hash := (hash ^^^ (hash <<< 25)) % 2 ^ 64
  let hash := hash ^^^ (hash >>> 27)
  hash * 2685821657736338717 % 2 ^ 64

/-- `consistent-hash.c:360`, the choice of replicas by the jump hash among the first `i` buckets.
The counter `pos` is an `unsigned short`. -/
def jumpSelect : Nat → Nat → Nat → List Server → Option (List Server)
  | 0, _, _, _ => some []
  | i + 1, pos, hash, bcklst => do
    let j ← jumpBucketpos hash (i + 1)
    let dest ← bcklst[j]?
    let pos := (pos + 65535) % 65536
    if pos = 0 then some [dest]
    else
      let last ← bcklst[i]?
      let rest ← jumpSelect i pos (xorshift hash) (bcklst.set j last)
      some (dest :: rest)

/-- `consistent-hash.c:323 ch_get_nodes`, for a metric up to its first space. -/
def chGetNodes (hashpos : ChType → Text → Nat) (past fuel : Nat) (ring : ChRing) (replcnt : Nat)
    (metric : Text) : Option (List Server) :=
  match ring.type with
  | .jumpFnv1a =>
    jumpSelect ring.entrylist.length replcnt (Fnv1a.hash64 metric) (ring.entrylist.map (·.server))
  | _ => do
    let t ← chSearch ring.entrylist past (hashpos ring.type metric) fuel 0 ring.entrylist.length
    chWalk ring.entrylist replcnt fuel t []

/-- `ch_get_nodes` terminates and fills the slots `ret`. -/
def ChReturns (hashpos : ChType → Text → Nat) (past : Nat) (ring : ChRing) (replcnt : Nat)
    (metric : Text) (ret : List Server) : Prop :=
  ∃ fuel₀, ∀ fuel, fuel₀ ≤ fuel → chGetNodes hashpos past fuel ring replcnt metric = some ret

end CarbonRelay
