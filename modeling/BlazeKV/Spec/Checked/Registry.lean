import BlazeKV.Spec.Checked.Generic
import BlazeKV.Spec.Checked.Hnsw
import BlazeKV.Spec.Checked.Server
import BlazeKV.Spec.Checked.ZSets

/-! `registry.cpp` and `exec_core` over the handlers with their accesses. -/

namespace BlazeKV.Checked

open Lib Hnsw

/-- `fn` of every spec but those of the vector commands. -/
def handlers (lim : Limits) : List (Bytes × CheckedHandler) := [
  (ascii "get", get),
  (ascii "set", set),
  (ascii "setnx", setnx),
  (ascii "setex", setex),
  (ascii "psetex", setex),
  (ascii "getset", getset),
  (ascii "append", append lim),
  (ascii "strlen", strlen),
  (ascii "incr", incr),
  (ascii "decr", decr),
  (ascii "incrby", incrby),
  (ascii "decrby", decrby),
  (ascii "incrbyfloat", incrbyfloat),
  (ascii "mget", mget),
  (ascii "mset", mset),
  (ascii "getrange", getrange),
  (ascii "setrange", setrange lim),
  (ascii "del", del),
  (ascii "unlink", unlink),
  (ascii "exists", exists'),
  (ascii "touch", exists'),
  (ascii "expire", expire),
  (ascii "pexpire", pexpire),
  (ascii "expireat", expireat),
  (ascii "ttl", ttl),
  (ascii "pttl", pttl),
  (ascii "persist", persist),
  (ascii "type", type),
  (ascii "keys", keys),
  (ascii "scan", scan),
  (ascii "rename", rename),
  (ascii "randomkey", randomkey),
  (ascii "object", object),
  (ascii "hset", hset),
  (ascii "hmset", hset),
  (ascii "hget", hget),
  (ascii "hdel", hdel),
  (ascii "hexists", hexists),
  (ascii "hgetall", hgetall),
  (ascii "hkeys", hkeys),
  (ascii "hvals", hvals),
  (ascii "hlen", hlen),
  (ascii "hincrby", hincrby),
  (ascii "hmget", hmget),
  (ascii "lpush", lpush),
  (ascii "rpush", rpush),
  (ascii "lpop", lpop),
  (ascii "rpop", rpop),
  (ascii "llen", llen),
  (ascii "lrange", lrange),
  (ascii "lindex", lindex),
  (ascii "lset", lset),
  (ascii "sadd", sadd),
  (ascii "srem", srem),
  (ascii "sismember", sismember),
  (ascii "scard", scard),
  (ascii "smembers", smembers),
  (ascii "spop", spop),
  (ascii "zadd", zadd),
  (ascii "zrem", zrem),
  (ascii "zscore", zscore),
  (ascii "zcard", zcard),
  (ascii "zrank", zrank),
  (ascii "zrange", zrange),
  (ascii "zrangebyscore", zrangebyscore),
  (ascii "zincrby", zincrby),
  (ascii "pfadd", pfadd lim),
  (ascii "pfcount", pfcount lim),
  (ascii "pfmerge", pfmerge lim),
  (ascii "ping", ping),
  (ascii "echo", echo),
  (ascii "select", select),
  (ascii "command", command),
  (ascii "info", info),
  (ascii "dbsize", dbsize),
  (ascii "flushall", flushall),
  (ascii "flushdb", flushdb),
  (ascii "config", config),
  (ascii "hello", hello),
  (ascii "client", client),
  (ascii "reset", reset),
  (ascii "debug", debug),
  (ascii "wait", wait)]

section Shard

variable {F : Type} (lim : Limits) (M : Metric F)

/-- `fn` of the vector commands. -/
def vectorHandlers : List (Bytes × (List Bytes → Vectors (Graph F) → Checked (VectorResult (Graph F)))) := [
  (ascii "vadd", vadd lim M),
  (ascii "vsim", vsim lim M),
  (ascii "vcard", vcard),
  (ascii "vrem", vrem)]

/-- `exec_core` on the keyspace and the indexes of a shard. -/
def execStore (env : Env) (argv : List Bytes) (st : Store (Graph F)) : Checked (Store (Graph F) × Exec) := do
  match route argv with
  | .error e => return (st, ⟨st.db, e, false, none⟩)
  | .ok spec =>
    let record (dirty : Bool) : Option Bytes := if dirty && spec.write then some (encodeMultibulk argv) else none
    match (vectorHandlers lim M).lookup spec.name with
    | some fn =>
      let v ← fn argv st.vectors
      return (⟨st.db, v.vectors⟩, ⟨st.db, v.reply, false, record v.dirty⟩)
    | none =>
      let fn ← need .pointer ((handlers lim).lookup spec.name)
      let r ← fn env argv st.db
      return (⟨r.db, if r.flush then fun _ => none else st.vectors⟩, ⟨r.db, r.reply, r.flush, record r.dirty⟩)

end Shard

end BlazeKV.Checked
