import BlazeKV.Spec.Commands.Strings
import BlazeKV.Spec.Commands.Generic
import BlazeKV.Spec.Commands.Hashes
import BlazeKV.Spec.Commands.Sets
import BlazeKV.Spec.Commands.ZSets
import BlazeKV.Spec.Commands.Server

/-! `registry.cpp` and the execution of one command by `shard.cpp`. -/

namespace BlazeKV

structure CommandSpec where
  name : Bytes
  fn : Handler
  arity : ℤ
  write : Bool
  firstKey : ℕ
  lastKey : ℤ
  keyStep : ℕ

/-- The table, with the one handler that reads it left open. -/
def specsWith (commandFn : Handler) : List CommandSpec := [
  ⟨ascii "get", Cmd.get, 2, false, 1, 1, 1⟩,
  ⟨ascii "set", Cmd.set, -3, true, 1, 1, 1⟩,
  ⟨ascii "setnx", Cmd.setnx, 3, true, 1, 1, 1⟩,
  ⟨ascii "setex", Cmd.setex, 4, true, 1, 1, 1⟩,
  ⟨ascii "psetex", Cmd.setex, 4, true, 1, 1, 1⟩,
  ⟨ascii "getset", Cmd.getset, 3, true, 1, 1, 1⟩,
  ⟨ascii "append", Cmd.append, 3, true, 1, 1, 1⟩,
  ⟨ascii "strlen", Cmd.strlen, 2, false, 1, 1, 1⟩,
  ⟨ascii "incr", Cmd.incr, 2, true, 1, 1, 1⟩,
  ⟨ascii "decr", Cmd.decr, 2, true, 1, 1, 1⟩,
  ⟨ascii "incrby", Cmd.incrby, 3, true, 1, 1, 1⟩,
  ⟨ascii "decrby", Cmd.decrby, 3, true, 1, 1, 1⟩,
  ⟨ascii "incrbyfloat", Cmd.incrbyfloat, 3, true, 1, 1, 1⟩,
  ⟨ascii "mget", Cmd.mget, -2, false, 1, -1, 1⟩,
  ⟨ascii "mset", Cmd.mset, -3, true, 1, -1, 2⟩,
  ⟨ascii "getrange", Cmd.getrange, 4, false, 1, 1, 1⟩,
  ⟨ascii "setrange", Cmd.setrange, 4, true, 1, 1, 1⟩,
  ⟨ascii "del", Cmd.del, -2, true, 1, -1, 1⟩,
  ⟨ascii "unlink", Cmd.unlink, -2, true, 1, -1, 1⟩,
  ⟨ascii "exists", Cmd.exists', -2, false, 1, -1, 1⟩,
  ⟨ascii "touch", Cmd.exists', -2, false, 1, -1, 1⟩,
  ⟨ascii "expire", Cmd.expire, 3, true, 1, 1, 1⟩,
  ⟨ascii "pexpire", Cmd.pexpire, 3, true, 1, 1, 1⟩,
  ⟨ascii "expireat", Cmd.expireat, 3, true, 1, 1, 1⟩,
  ⟨ascii "ttl", Cmd.ttl, 2, false, 1, 1, 1⟩,
  ⟨ascii "pttl", Cmd.pttl, 2, false, 1, 1, 1⟩,
  ⟨ascii "persist", Cmd.persist, 2, true, 1, 1, 1⟩,
  ⟨ascii "type", Cmd.type, 2, false, 1, 1, 1⟩,
  ⟨ascii "keys", Cmd.keys, 2, false, 0, 0, 0⟩,
  ⟨ascii "scan", Cmd.scan, -2, false, 0, 0, 0⟩,
  ⟨ascii "rename", Cmd.rename, 3, true, 1, 2, 1⟩,
  ⟨ascii "randomkey", Cmd.randomkey, 1, false, 0, 0, 0⟩,
  ⟨ascii "object", Cmd.object, -2, false, 2, 2, 1⟩,
  ⟨ascii "hset", Cmd.hset, -4, true, 1, 1, 1⟩,
  ⟨ascii "hmset", Cmd.hset, -4, true, 1, 1, 1⟩,
  ⟨ascii "hget", Cmd.hget, 3, false, 1, 1, 1⟩,
  ⟨ascii "hdel", Cmd.hdel, -3, true, 1, 1, 1⟩,
  ⟨ascii "hexists", Cmd.hexists, 3, false, 1, 1, 1⟩,
  ⟨ascii "hgetall", Cmd.hgetall, 2, false, 1, 1, 1⟩,
  ⟨ascii "hkeys", Cmd.hkeys, 2, false, 1, 1, 1⟩,
  ⟨ascii "hvals", Cmd.hvals, 2, false, 1, 1, 1⟩,
  ⟨ascii "hlen", Cmd.hlen, 2, false, 1, 1, 1⟩,
  ⟨ascii "hincrby", Cmd.hincrby, 4, true, 1, 1, 1⟩,
  ⟨ascii "hmget", Cmd.hmget, -3, false, 1, 1, 1⟩,
  ⟨ascii "lpush", Cmd.lpush, -3, true, 1, 1, 1⟩,
  ⟨ascii "rpush", Cmd.rpush, -3, true, 1, 1, 1⟩,
  ⟨ascii "lpop", Cmd.lpop, -2, true, 1, 1, 1⟩,
  ⟨ascii "rpop", Cmd.rpop, -2, true, 1, 1, 1⟩,
  ⟨ascii "llen", Cmd.llen, 2, false, 1, 1, 1⟩,
  ⟨ascii "lrange", Cmd.lrange, 4, false, 1, 1, 1⟩,
  ⟨ascii "lindex", Cmd.lindex, 3, false, 1, 1, 1⟩,
  ⟨ascii "lset", Cmd.lset, 4, true, 1, 1, 1⟩,
  ⟨ascii "sadd", Cmd.sadd, -3, true, 1, 1, 1⟩,
  ⟨ascii "srem", Cmd.srem, -3, true, 1, 1, 1⟩,
  ⟨ascii "sismember", Cmd.sismember, 3, false, 1, 1, 1⟩,
  ⟨ascii "scard", Cmd.scard, 2, false, 1, 1, 1⟩,
  ⟨ascii "smembers", Cmd.smembers, 2, false, 1, 1, 1⟩,
  ⟨ascii "spop", Cmd.spop, -2, true, 1, 1, 1⟩,
  ⟨ascii "zadd", Cmd.zadd, -4, true, 1, 1, 1⟩,
  ⟨ascii "zrem", Cmd.zrem, -3, true, 1, 1, 1⟩,
  ⟨ascii "zscore", Cmd.zscore, 3, false, 1, 1, 1⟩,
  ⟨ascii "zcard", Cmd.zcard, 2, false, 1, 1, 1⟩,
  ⟨ascii "zrank", Cmd.zrank, 3, false, 1, 1, 1⟩,
  ⟨ascii "zrange", Cmd.zrange, -4, false, 1, 1, 1⟩,
  ⟨ascii "zrangebyscore", Cmd.zrangebyscore, -4, false, 1, 1, 1⟩,
  ⟨ascii "zincrby", Cmd.zincrby, 4, true, 1, 1, 1⟩,
  ⟨ascii "pfadd", Cmd.pfadd, -2, true, 1, 1, 1⟩,
  ⟨ascii "pfcount", Cmd.pfcount, -2, false, 1, -1, 1⟩,
  ⟨ascii "pfmerge", Cmd.pfmerge, -2, true, 1, -1, 1⟩,
  ⟨ascii "vadd", Cmd.vadd, -4, true, 1, 1, 1⟩,
  ⟨ascii "vsim", Cmd.vsim, -4, false, 1, 1, 1⟩,
  ⟨ascii "vcard", Cmd.vcard, 2, false, 1, 1, 1⟩,
  ⟨ascii "vrem", Cmd.vrem, 3, true, 1, 1, 1⟩,
  ⟨ascii "ping", Cmd.ping, -1, false, 0, 0, 0⟩,
  ⟨ascii "echo", Cmd.echo, 2, false, 0, 0, 0⟩,
  ⟨ascii "select", Cmd.select, 2, false, 0, 0, 0⟩,
  ⟨ascii "command", commandFn, -1, false, 0, 0, 0⟩,
  ⟨ascii "info", Cmd.info, -1, false, 0, 0, 0⟩,
  ⟨ascii "dbsize", Cmd.dbsize, 1, false, 0, 0, 0⟩,
  ⟨ascii "flushall", Cmd.flushall, -1, false, 0, 0, 0⟩,
  ⟨ascii "flushdb", Cmd.flushdb, -1, false, 0, 0, 0⟩,
  ⟨ascii "config", Cmd.config, -2, false, 0, 0, 0⟩,
  ⟨ascii "hello", Cmd.hello, -1, false, 0, 0, 0⟩,
  ⟨ascii "client", Cmd.client, -2, false, 0, 0, 0⟩,
  ⟨ascii "reset", Cmd.reset, 1, false, 0, 0, 0⟩,
  ⟨ascii "debug", Cmd.debug, -2, false, 0, 0, 0⟩,
  ⟨ascii "wait", Cmd.wait, 3, false, 0, 0, 0⟩]

def specReply (s : CommandSpec) : Bytes :=
  Reply.arrayHeader 6 ++ Reply.bulk s.name ++ Reply.integer s.arity ++ Reply.arrayHeader 1 ++
    Reply.simpleString (if s.write then ascii "write" else ascii "readonly") ++
    Reply.integer s.firstKey ++ Reply.integer (if s.lastKey < 0 then -1 else s.lastKey) ++
    Reply.integer s.keyStep

/-- `command_`, which does not run a handler. -/
def Cmd.command : Handler := fun _ argv db =>
  let specs := specsWith ping
  .clean db
    (if argv.length ≥ 2 ∧ lowercase (arg argv 1) = ascii "count" then Reply.integer specs.length
     else if argv.length ≥ 2 ∧ lowercase (arg argv 1) = ascii "docs" then Reply.arrayHeader 0
     else Reply.arrayHeader specs.length ++ specs.flatMap specReply)

namespace CommandTable

def specs : List CommandSpec := specsWith Cmd.command

def find (name : Bytes) : Option CommandSpec := specs.find? fun s => s.name = name

end CommandTable

def arityOk (spec : CommandSpec) (argc : ℕ) : Bool :=
  if spec.arity ≥ 0 then (argc : ℤ) = spec.arity else (argc : ℤ) ≥ -spec.arity

/-- The positions that `extract_keys` visits. -/
def keyIndexes (spec : CommandSpec) (argc : ℕ) : List ℕ :=
  if spec.firstKey = 0 then []
  else
    let last : ℤ := if spec.lastKey < 0 then argc + spec.lastKey else spec.lastKey
    let last : ℤ := if last ≥ argc then argc - 1 else last
    List.range' spec.firstKey ((last - spec.firstKey) / spec.keyStep + 1).toNat spec.keyStep

def extractKeys (spec : CommandSpec) (argv : List Bytes) : List Bytes :=
  (keyIndexes spec argv.length).map (arg argv)

def errUnknown (name : Bytes) : Bytes :=
  Reply.error (ascii "ERR unknown command '" ++ name ++ ascii "'")

/-- The handler that a command reaches, or the error reply. -/
def route (argv : List Bytes) : Except Bytes CommandSpec :=
  let name := lowercase (cmdName argv)
  match CommandTable.find name with
  | none => .error (errUnknown (cmdName argv))
  | some spec => if arityOk spec argv.length then .ok spec else .error (errWrongArgs name)

structure Exec where
  db : Keyspace
  reply : Bytes
  flush : Bool
  /-- What is appended to the log when that is open. -/
  record : Option Bytes

def execCore (env : Env) (argv : List Bytes) (db : Keyspace) : Exec :=
  match route argv with
  | .error e => ⟨db, e, false, none⟩
  | .ok spec =>
    let r := spec.fn env argv db
    ⟨r.db, r.reply, r.flush, if r.dirty && spec.write then some (encodeMultibulk argv) else none⟩

/-- One command of a run on one keyspace. -/
def execStep (db : Keyspace) (c : Env × List Bytes) : Keyspace × Bytes :=
  ((execCore c.1 c.2 db).db, (execCore c.1 c.2 db).reply)

def execReplay (env : Env) (argv : List Bytes) (db : Keyspace) : Keyspace :=
  match route argv with
  | .error _ => db
  | .ok spec => (spec.fn env argv db).db

theorem execCore_db (env : Env) (argv : List Bytes) (db : Keyspace) :
    (execCore env argv db).db = execReplay env argv db := by
  unfold execCore execReplay
  cases route argv <;> rfl

theorem route_ok {argv : List Bytes} {spec : CommandSpec} (h : route argv = .ok spec) :
    CommandTable.find (lowercase (cmdName argv)) = some spec ∧ arityOk spec argv.length := by
  unfold route at h
  cases hf : CommandTable.find (lowercase (cmdName argv)) with
  | none => simp [hf] at h
  | some s =>
    simp only [hf] at h
    split_ifs at h with ha
    obtain rfl := Except.ok.inj h
    exact ⟨rfl, ha⟩

end BlazeKV
