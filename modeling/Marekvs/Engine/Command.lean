import Marekvs.Resp.ReplyBuf

/-!
# The commands

The names that the dispatcher serves, with what the node has written down about each: whether it may run beside the other
commands of a pipeline, whether it writes, and where its keys stand: the first position (zero for no keys), the last one (from the
end where it is negative) and the step. Beside it are the places where the handlers read keys, as far as these are fixed.
-/

namespace Marekvs

open Resp (ascii)

def asciiLower (b : UInt8) : UInt8 := if 65 ≤ b ∧ b ≤ 90 then b + 32 else b

def eqIgnoreCase (b : Bytes) (s : String) : Bool := b.map asciiLower = (ascii s).map asciiLower

inductive Command where
  | ping | echo | hello | auth | quit | reset | select | client | command | config | info | dbsize | flushall
  | flushdb | time | replicaof | slaveof | shutdown | debug
  | cluster
  | bgCreate | bgTopup | bgReserve | bgCommit | bgRelease | bgDraw | bgInfo | bgReclaim | diffSnapshot | diffFork
  | diffCompare | diffHash | diffStats | diffImport | diffDecide | diffDecisions | diffApply | diffMerge3
  | jsonSet | jsonGet | jsonMget | jsonMset | jsonDel | jsonForget | jsonType | jsonNumincrby | jsonNummultby
  | jsonStrappend | jsonStrlen | jsonArrappend | jsonArrindex | jsonArrinsert | jsonArrlen | jsonArrpop | jsonArrtrim
  | jsonObjkeys | jsonObjlen | jsonToggle | jsonClear | jsonMerge | jsonResp | jsonDebug
  | protoSchema | protoBind | protoUnbind | protoBindings | protoSet | protoGet | protoInfo | protoGetjson
  | protoSetjson | protoGetfield | protoSetfield | protoClearfield | protoHset | protoSadd | protoHgetjson
  | protoHgetfield
  | del | unlink | existsKeys | typeOf | ttl | pttl | expiremember | expirememberat | pexpirememberat | expire
  | pexpire | expireat | pexpireat | expiretime | pexpiretime | persist | keysMatching | scan | randomkey | rename
  | renamenx | copy | object | touch
  | get | set | setnx | setex | psetex | getset | getdel | getex | append | strlen | incr | decr | incrby | decrby
  | incrbyfloat | mget | mset | msetnx | setrange | getrange | substr
  | hset | hmset | hsetnx | hget | hmget | hgetall | hdel | hgetdel | hexpire | hpexpire | hexpireat | hpexpireat
  | httl | hpttl | hexpiretime | hpexpiretime | hpersist | hgetex | hsetex | hexists | hlen | hkeys | hvals | hstrlen
  | hincrby | hincrbyfloat | hrandfield | hscan
  | sadd | srem | scard | sismember | smismember | smembers | spop | srandmember | sscan | smove | sunion | sinter
  | sdiff | sunionstore | sinterstore | sdiffstore | sintercard
  | zadd | zscore | zmscore | zcard | zincrby | zrem | zrange | zrangebyscore | zrevrangebyscore | zrevrange | zrank
  | zrevrank | zcount | zlexcount | zpopmin | zpopmax | bzpopmin | bzpopmax | zmpop | bzmpop | zrandmember
  | zrangestore | zrangebylex | zrevrangebylex | zremrangebyscore | zremrangebyrank | zremrangebylex | zunion | zinter
  | zdiff | zunionstore | zinterstore | zdiffstore | zintercard | zscan
  | lpush | rpush | lpushx | rpushx | lpop | rpop | llen | lrange | lindex | lset | lrem | ltrim | linsert | lpos
  | lmove | rpoplpush | lmpop | blpop | brpop | blmove | brpoplpush | blmpop
  | xadd | xlen | xrange | xrevrange | xread | xdel | xtrim | xsetid | xinfo
  | eval | evalsha | script
  | pfadd | pfcount | pfmerge
  | subscribe | unsubscribe | psubscribe | punsubscribe | publish | pubsub
  deriving DecidableEq, Repr

namespace Command

def name : Command → String
  | ping => "PING" | echo => "ECHO" | hello => "HELLO" | auth => "AUTH" | quit => "QUIT" | reset => "RESET"
  | select => "SELECT" | client => "CLIENT" | command => "COMMAND" | config => "CONFIG" | info => "INFO"
  | dbsize => "DBSIZE" | flushall => "FLUSHALL" | flushdb => "FLUSHDB" | time => "TIME" | replicaof => "REPLICAOF"
  | slaveof => "SLAVEOF" | shutdown => "SHUTDOWN" | debug => "DEBUG" | cluster => "CLUSTER" | bgCreate => "BG.CREATE"
  | bgTopup => "BG.TOPUP" | bgReserve => "BG.RESERVE" | bgCommit => "BG.COMMIT" | bgRelease => "BG.RELEASE"
  | bgDraw => "BG.DRAW" | bgInfo => "BG.INFO" | bgReclaim => "BG.RECLAIM" | diffSnapshot => "DIFF.SNAPSHOT"
  | diffFork => "DIFF.FORK" | diffCompare => "DIFF.COMPARE" | diffHash => "DIFF.HASH" | diffStats => "DIFF.STATS"
  | diffImport => "DIFF.IMPORT" | diffDecide => "DIFF.DECIDE" | diffDecisions => "DIFF.DECISIONS"
  | diffApply => "DIFF.APPLY" | diffMerge3 => "DIFF.MERGE3" | jsonSet => "JSON.SET" | jsonGet => "JSON.GET"
  | jsonMget => "JSON.MGET" | jsonMset => "JSON.MSET" | jsonDel => "JSON.DEL" | jsonForget => "JSON.FORGET"
  | jsonType => "JSON.TYPE" | jsonNumincrby => "JSON.NUMINCRBY" | jsonNummultby => "JSON.NUMMULTBY"
  | jsonStrappend => "JSON.STRAPPEND" | jsonStrlen => "JSON.STRLEN" | jsonArrappend => "JSON.ARRAPPEND"
  | jsonArrindex => "JSON.ARRINDEX" | jsonArrinsert => "JSON.ARRINSERT" | jsonArrlen => "JSON.ARRLEN"
  | jsonArrpop => "JSON.ARRPOP" | jsonArrtrim => "JSON.ARRTRIM" | jsonObjkeys => "JSON.OBJKEYS"
  | jsonObjlen => "JSON.OBJLEN" | jsonToggle => "JSON.TOGGLE" | jsonClear => "JSON.CLEAR" | jsonMerge => "JSON.MERGE"
  | jsonResp => "JSON.RESP" | jsonDebug => "JSON.DEBUG" | protoSchema => "PROTO.SCHEMA" | protoBind => "PROTO.BIND"
  | protoUnbind => "PROTO.UNBIND" | protoBindings => "PROTO.BINDINGS" | protoSet => "PROTO.SET"
  | protoGet => "PROTO.GET" | protoInfo => "PROTO.INFO" | protoGetjson => "PROTO.GETJSON"
  | protoSetjson => "PROTO.SETJSON" | protoGetfield => "PROTO.GETFIELD" | protoSetfield => "PROTO.SETFIELD"
  | protoClearfield => "PROTO.CLEARFIELD" | protoHset => "PROTO.HSET" | protoSadd => "PROTO.SADD"
  | protoHgetjson => "PROTO.HGETJSON" | protoHgetfield => "PROTO.HGETFIELD" | del => "DEL" | unlink => "UNLINK"
  | existsKeys => "EXISTS" | typeOf => "TYPE" | ttl => "TTL" | pttl => "PTTL" | expiremember => "EXPIREMEMBER"
  | expirememberat => "EXPIREMEMBERAT" | pexpirememberat => "PEXPIREMEMBERAT" | expire => "EXPIRE"
  | pexpire => "PEXPIRE" | expireat => "EXPIREAT" | pexpireat => "PEXPIREAT" | expiretime => "EXPIRETIME"
  | pexpiretime => "PEXPIRETIME" | persist => "PERSIST" | keysMatching => "KEYS" | scan => "SCAN"
  | randomkey => "RANDOMKEY" | rename => "RENAME" | renamenx => "RENAMENX" | copy => "COPY" | object => "OBJECT"
  | touch => "TOUCH" | get => "GET" | set => "SET" | setnx => "SETNX" | setex => "SETEX" | psetex => "PSETEX"
  | getset => "GETSET" | getdel => "GETDEL" | getex => "GETEX" | append => "APPEND" | strlen => "STRLEN"
  | incr => "INCR" | decr => "DECR" | incrby => "INCRBY" | decrby => "DECRBY" | incrbyfloat => "INCRBYFLOAT"
  | mget => "MGET" | mset => "MSET" | msetnx => "MSETNX" | setrange => "SETRANGE" | getrange => "GETRANGE"
  | substr => "SUBSTR" | hset => "HSET" | hmset => "HMSET" | hsetnx => "HSETNX" | hget => "HGET" | hmget => "HMGET"
  | hgetall => "HGETALL" | hdel => "HDEL" | hgetdel => "HGETDEL" | hexpire => "HEXPIRE" | hpexpire => "HPEXPIRE"
  | hexpireat => "HEXPIREAT" | hpexpireat => "HPEXPIREAT" | httl => "HTTL" | hpttl => "HPTTL"
  | hexpiretime => "HEXPIRETIME" | hpexpiretime => "HPEXPIRETIME" | hpersist => "HPERSIST" | hgetex => "HGETEX"
  | hsetex => "HSETEX" | hexists => "HEXISTS" | hlen => "HLEN" | hkeys => "HKEYS" | hvals => "HVALS"
  | hstrlen => "HSTRLEN" | hincrby => "HINCRBY" | hincrbyfloat => "HINCRBYFLOAT" | hrandfield => "HRANDFIELD"
  | hscan => "HSCAN" | sadd => "SADD" | srem => "SREM" | scard => "SCARD" | sismember => "SISMEMBER"
  | smismember => "SMISMEMBER" | smembers => "SMEMBERS" | spop => "SPOP" | srandmember => "SRANDMEMBER"
  | sscan => "SSCAN" | smove => "SMOVE" | sunion => "SUNION" | sinter => "SINTER" | sdiff => "SDIFF"
  | sunionstore => "SUNIONSTORE" | sinterstore => "SINTERSTORE" | sdiffstore => "SDIFFSTORE"
  | sintercard => "SINTERCARD" | zadd => "ZADD" | zscore => "ZSCORE" | zmscore => "ZMSCORE" | zcard => "ZCARD"
  | zincrby => "ZINCRBY" | zrem => "ZREM" | zrange => "ZRANGE" | zrangebyscore => "ZRANGEBYSCORE"
  | zrevrangebyscore => "ZREVRANGEBYSCORE" | zrevrange => "ZREVRANGE" | zrank => "ZRANK" | zrevrank => "ZREVRANK"
  | zcount => "ZCOUNT" | zlexcount => "ZLEXCOUNT" | zpopmin => "ZPOPMIN" | zpopmax => "ZPOPMAX"
  | bzpopmin => "BZPOPMIN" | bzpopmax => "BZPOPMAX" | zmpop => "ZMPOP" | bzmpop => "BZMPOP"
  | zrandmember => "ZRANDMEMBER" | zrangestore => "ZRANGESTORE" | zrangebylex => "ZRANGEBYLEX"
  | zrevrangebylex => "ZREVRANGEBYLEX" | zremrangebyscore => "ZREMRANGEBYSCORE"
  | zremrangebyrank => "ZREMRANGEBYRANK" | zremrangebylex => "ZREMRANGEBYLEX" | zunion => "ZUNION"
  | zinter => "ZINTER" | zdiff => "ZDIFF" | zunionstore => "ZUNIONSTORE" | zinterstore => "ZINTERSTORE"
  | zdiffstore => "ZDIFFSTORE" | zintercard => "ZINTERCARD" | zscan => "ZSCAN" | lpush => "LPUSH" | rpush => "RPUSH"
  | lpushx => "LPUSHX" | rpushx => "RPUSHX" | lpop => "LPOP" | rpop => "RPOP" | llen => "LLEN" | lrange => "LRANGE"
  | lindex => "LINDEX" | lset => "LSET" | lrem => "LREM" | ltrim => "LTRIM" | linsert => "LINSERT" | lpos => "LPOS"
  | lmove => "LMOVE" | rpoplpush => "RPOPLPUSH" | lmpop => "LMPOP" | blpop => "BLPOP" | brpop => "BRPOP"
  | blmove => "BLMOVE" | brpoplpush => "BRPOPLPUSH" | blmpop => "BLMPOP" | xadd => "XADD" | xlen => "XLEN"
  | xrange => "XRANGE" | xrevrange => "XREVRANGE" | xread => "XREAD" | xdel => "XDEL" | xtrim => "XTRIM"
  | xsetid => "XSETID" | xinfo => "XINFO" | eval => "EVAL" | evalsha => "EVALSHA" | script => "SCRIPT"
  | pfadd => "PFADD" | pfcount => "PFCOUNT" | pfmerge => "PFMERGE" | subscribe => "SUBSCRIBE"
  | unsubscribe => "UNSUBSCRIBE" | psubscribe => "PSUBSCRIBE" | punsubscribe => "PUNSUBSCRIBE" | publish => "PUBLISH"
  | pubsub => "PUBSUB"

def all : List Command :=
  [ping, echo, hello, auth, quit, reset, select, client, command, config, info, dbsize, flushall, flushdb, time,
   replicaof, slaveof, shutdown, debug, cluster, bgCreate, bgTopup, bgReserve, bgCommit, bgRelease, bgDraw, bgInfo,
   bgReclaim, diffSnapshot, diffFork, diffCompare, diffHash, diffStats, diffImport, diffDecide, diffDecisions,
   diffApply, diffMerge3, jsonSet, jsonGet, jsonMget, jsonMset, jsonDel, jsonForget, jsonType, jsonNumincrby,
   jsonNummultby, jsonStrappend, jsonStrlen, jsonArrappend, jsonArrindex, jsonArrinsert, jsonArrlen, jsonArrpop,
   jsonArrtrim, jsonObjkeys, jsonObjlen, jsonToggle, jsonClear, jsonMerge, jsonResp, jsonDebug, protoSchema,
   protoBind, protoUnbind, protoBindings, protoSet, protoGet, protoInfo, protoGetjson, protoSetjson, protoGetfield,
   protoSetfield, protoClearfield, protoHset, protoSadd, protoHgetjson, protoHgetfield, del, unlink, existsKeys,
   typeOf, ttl, pttl, expiremember, expirememberat, pexpirememberat, expire, pexpire, expireat, pexpireat, expiretime,
   pexpiretime, persist, keysMatching, scan, randomkey, rename, renamenx, copy, object, touch, get, set, setnx, setex,
   psetex, getset, getdel, getex, append, strlen, incr, decr, incrby, decrby, incrbyfloat, mget, mset, msetnx,
   setrange, getrange, substr, hset, hmset, hsetnx, hget, hmget, hgetall, hdel, hgetdel, hexpire, hpexpire, hexpireat,
   hpexpireat, httl, hpttl, hexpiretime, hpexpiretime, hpersist, hgetex, hsetex, hexists, hlen, hkeys, hvals, hstrlen,
   hincrby, hincrbyfloat, hrandfield, hscan, sadd, srem, scard, sismember, smismember, smembers, spop, srandmember,
   sscan, smove, sunion, sinter, sdiff, sunionstore, sinterstore, sdiffstore, sintercard, zadd, zscore, zmscore,
   zcard, zincrby, zrem, zrange, zrangebyscore, zrevrangebyscore, zrevrange, zrank, zrevrank, zcount, zlexcount,
   zpopmin, zpopmax, bzpopmin, bzpopmax, zmpop, bzmpop, zrandmember, zrangestore, zrangebylex, zrevrangebylex,
   zremrangebyscore, zremrangebyrank, zremrangebylex, zunion, zinter, zdiff, zunionstore, zinterstore, zdiffstore,
   zintercard, zscan, lpush, rpush, lpushx, rpushx, lpop, rpop, llen, lrange, lindex, lset, lrem, ltrim, linsert,
   lpos, lmove, rpoplpush, lmpop, blpop, brpop, blmove, brpoplpush, blmpop, xadd, xlen, xrange, xrevrange, xread,
   xdel, xtrim, xsetid, xinfo, eval, evalsha, script, pfadd, pfcount, pfmerge, subscribe, unsubscribe, psubscribe,
   punsubscribe, publish, pubsub]

/-- The command of a name in upper case. -/
def find (name : Bytes) : Option Command := all.find? fun c => ascii c.name = name

/-- Commands that a client's pipeline may run side by side. -/
def parallelSafe : Command → Bool
  | get | set | setnx | setex | psetex | getset | getdel | getex | append | strlen | incr | decr | incrby | decrby
  | incrbyfloat | mget | mset | msetnx | setrange | getrange | substr | del | unlink | existsKeys | typeOf | ttl
  | pttl | expire | pexpire | expireat | pexpireat | expiretime | pexpiretime | expiremember | expirememberat
  | pexpirememberat | pfadd | pfcount | pfmerge | persist | copy | touch | sadd | srem | scard | sismember
  | smismember | smembers | spop | srandmember | sscan | smove | sunion | sinter | sdiff | sunionstore | sinterstore
  | sdiffstore | sintercard | hset | hmset | hsetnx | hget | hmget | hgetall | hdel | hgetdel | hexpire | hpexpire
  | hexpireat | hpexpireat | httl | hpttl | hexpiretime | hpexpiretime | hpersist | hgetex | hsetex | hexists | hlen
  | hkeys | hvals | hstrlen | hincrby | hincrbyfloat | hrandfield | hscan | zadd | zscore | zmscore | zcard | zincrby
  | zrem | zrange | zrangebyscore | zrevrangebyscore | zrevrange | zrank | zrevrank | zcount | zlexcount | zpopmin
  | zpopmax | zmpop | zrandmember | zrangestore | zrangebylex | zrevrangebylex | zremrangebyscore | zremrangebyrank
  | zremrangebylex | zunion | zinter | zdiff | zunionstore | zinterstore | zdiffstore | zintercard | zscan | lpush
  | rpush | lpushx | rpushx | lpop | rpop | llen | lrange | lindex | lset | lrem | ltrim | linsert | lpos | lmove
  | rpoplpush | lmpop | xadd | xlen | xrange | xrevrange | xread | xdel | xtrim | xsetid | xinfo | bgReserve
  | bgCommit | bgRelease | bgDraw | bgInfo | jsonSet | jsonGet | jsonMget | jsonMset | jsonDel | jsonForget | jsonType
  | jsonNumincrby | jsonNummultby | jsonStrappend | jsonStrlen | jsonArrappend | jsonArrindex | jsonArrinsert
  | jsonArrlen | jsonArrpop | jsonArrtrim | jsonObjkeys | jsonObjlen | jsonToggle | jsonClear | jsonMerge | jsonResp
  | protoBind | protoUnbind | protoSet | protoSetfield | protoClearfield | protoSetjson | protoHset | protoSadd | ping
  | echo => true
  | _ => false

/-- Commands that are refused while the node takes no writes. -/
def isWriteCommand : Command → Bool
  | diffSnapshot | diffFork | diffCompare | diffImport | diffDecide | diffApply | diffMerge3 | set | setnx | setex
  | psetex | getset | getdel | getex | append | incr | decr | incrby | decrby | incrbyfloat | mset | msetnx | setrange
  | del | unlink | flushall | flushdb | expire | pexpire | expireat | pexpireat | expiremember | expirememberat
  | pexpirememberat | persist | rename | renamenx | copy | hset | hsetnx | hmset | hdel | hgetdel | hexpire | hpexpire
  | hexpireat | hpexpireat | hpersist | hgetex | hsetex | hincrby | hincrbyfloat | sadd | srem | spop | smove
  | sunionstore | sinterstore | sdiffstore | zadd | zincrby | zrem | zpopmin | zpopmax | bzpopmin | bzpopmax | zmpop
  | bzmpop | zrangestore | zremrangebyscore | zremrangebyrank | zremrangebylex | zunionstore | zinterstore
  | zdiffstore | lpush | rpush | lpushx | rpushx | lpop | rpop | lset | lrem | ltrim | linsert | lmove | rpoplpush
  | lmpop | blpop | brpop | blmove | brpoplpush | blmpop | xadd | xdel | xtrim | xsetid | pfadd | pfmerge | eval
  | evalsha | bgCreate | bgTopup | bgReserve | bgCommit | bgRelease | bgDraw | bgReclaim | jsonSet | jsonMset
  | jsonDel | jsonForget | jsonNumincrby | jsonNummultby | jsonStrappend | jsonArrappend | jsonArrinsert | jsonArrpop
  | jsonArrtrim | jsonToggle | jsonClear | jsonMerge | protoBind | protoUnbind | protoSet | protoSetfield
  | protoClearfield | protoSetjson | protoHset | protoSadd => true
  | _ => false

/-! ## Keys as they are written down -/

/-- The first position of a key, the last, and the distance between keys. -/
structure KeySpec where
  first : Int
  last : Int
  step : Int
  deriving DecidableEq, Repr

def keySpec : Command → KeySpec
  | ping | echo | hello | auth | quit | reset | select | client | command | config | info | dbsize | flushall
  | flushdb | time | replicaof | slaveof | shutdown | debug | cluster | diffStats | protoSchema | protoBind
  | protoUnbind | protoBindings | keysMatching | scan | randomkey | sintercard | zmpop | bzmpop | zunion | zinter
  | zdiff | zunionstore | zinterstore | zdiffstore | zintercard | lmpop | blmpop | xread | xinfo | eval | evalsha
  | script | subscribe | unsubscribe | psubscribe | punsubscribe | publish | pubsub => ⟨0, 0, 0⟩
  | diffFork | diffCompare | rename | renamenx | copy | smove | zrangestore | lmove | rpoplpush | blmove | brpoplpush => ⟨1, 2, 1⟩
  | diffMerge3 => ⟨1, 3, 1⟩
  | jsonDebug | object => ⟨2, 2, 1⟩
  | jsonMget | bzpopmin | bzpopmax | blpop | brpop => ⟨1, -2, 1⟩
  | del | unlink | existsKeys | touch | mget | sunion | sinter | sdiff | sunionstore | sinterstore | sdiffstore
  | pfcount | pfmerge => ⟨1, -1, 1⟩
  | mset | msetnx => ⟨1, -1, 2⟩
  | jsonMset => ⟨1, -1, 3⟩
  | _ => ⟨1, 1, 1⟩

/-- The arguments at `i`, `i + step` and so on, up to `last`. -/
def keysFrom (argv : List Bytes) (last step : Int) : Nat → Int → List Bytes
  | 0, _ => []
  | fuel + 1, i =>
    if i ≤ last ∧ i.toNat < argv.length then argv.getD i.toNat [] :: keysFrom argv last step fuel (i + step) else []

/-- The sources behind an import's options, which come in pairs. -/
def importSources : List Bytes → List Bytes
  | word :: source :: rest =>
    if eqIgnoreCase word "FROM" then source :: importSources rest else importSources rest
  | _ => []

/-- The keys among the arguments, by the places that are written down. The name is the first argument. -/
def extractKeys (c : Command) (argv : List Bytes) : List Bytes :=
  if c = .diffImport then argv[1]?.toList ++ importSources (argv.drop 3)
  else
    let spec := c.keySpec
    if spec.first = 0 then []
    else
      let last := if spec.last < 0 then argv.length + spec.last else spec.last
      let step := if spec.step ≤ 0 then 1 else spec.step
      keysFrom argv last step argv.length spec.first

/-! ## Keys as the handlers read them -/

/-- The places of a handler's keys. -/
inductive KeyPlaces where
  | nowhere
  | first
  | firstTwo
  | everywhere
  /-- the first of every two -/
  | pairs
  /-- the first of every three -/
  | triples
  | allButLast
  deriving DecidableEq, Repr

namespace KeyPlaces

/-- Whether the argument at `i` of `argc` is a key. -/
def holds : KeyPlaces → Nat → Nat → Bool
  | nowhere, _, _ => false
  | first, _, i => i = 1
  | firstTwo, _, i => i = 1 || i = 2
  | everywhere, _, i => 1 ≤ i
  | pairs, _, i => i % 2 = 1
  | triples, _, i => i % 3 = 1
  | allButLast, argc, i => 1 ≤ i && i + 1 < argc

def keys (p : KeyPlaces) (argv : List Bytes) : List Bytes :=
  (List.range argv.length).filterMap fun i => if p.holds argv.length i then argv[i]? else none

theorem mem_keys {p : KeyPlaces} : k ∈ p.keys argv ↔ ∃ i, p.holds argv.length i = true ∧ argv[i]? = some k := by
  simp only [keys, List.mem_filterMap, List.mem_range]
  constructor
  · rintro ⟨i, -, hi⟩
    split at hi
    · exact ⟨i, ‹_›, hi⟩
    · cases hi
  · rintro ⟨i, hp, hi⟩
    exact ⟨i, (List.getElem?_eq_some_iff.mp hi).1, by rw [if_pos hp]; exact hi⟩

end KeyPlaces

/-- The commands whose keys stand behind their number or behind a word. -/
def movable : Command → Bool
  | sintercard | zmpop | zunion | zinter | zdiff | zunionstore | zinterstore | zdiffstore | zintercard | lmpop | xread
  | xinfo => true
  | _ => false

/-- The places where the handlers of the other commands that a script may call read keys. -/
def places : Command → KeyPlaces
  | ping | echo | time => .nowhere
  | copy | smove | zrangestore | lmove | rpoplpush => .firstTwo
  | del | unlink | existsKeys | touch | sunion | sinter | sdiff | sunionstore | sinterstore | sdiffstore | pfcount
  | pfmerge => .everywhere
  | msetnx => .pairs
  | jsonMset => .triples
  | jsonMget => .allButLast
  | _ => .first

/-- The loop over positions comes to every position that is a whole number of steps away. -/
theorem mem_keysFrom {argv : List Bytes} {last : Int} {step : Nat} (hstep : 0 < step) (fuel n i : Nat)
    (hlast : (i + n * step : Nat) ≤ last) (hlen : i + n * step < argv.length) (hfuel : argv.length ≤ fuel + i) :
    argv.getD (i + n * step) [] ∈ keysFrom argv last step fuel i := by
  induction n generalizing fuel i with
  | zero =>
    cases fuel with
    | zero => omega
    | succ fuel =>
      rw [keysFrom, if_pos ⟨by simpa using hlast, by simpa using hlen⟩]
      simp
  | succ n ih =>
    have hshift : i + (n + 1) * step = i + step + n * step := by rw [Nat.succ_mul]; omega
    rw [hshift] at hlast hlen ⊢
    cases fuel with
    | zero => omega
    | succ fuel =>
      rw [keysFrom, if_pos ⟨by omega, by simpa using (show i < argv.length by omega)⟩]
      exact List.mem_cons_of_mem _ (ih fuel (i + step) hlast hlen (by omega))

end Command

end Marekvs
