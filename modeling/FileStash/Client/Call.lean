import FileStash.Value.Basic

namespace FileStash

inductive Command
  | ping
  | set (key : String) (value : Value) (seconds : Option Int)
  | get (key : String)
  | hset (key : String) (field value : Value)
  | hsetAll (key : String) (entries : List (Value × Value))
  | hget (key : String) (field : Value)
  | hmget (key : String) (fields : List Value)
  | hgetall (key : String)
  | hdel (key : String) (fields : List Value)
  | hexists (key : String) (field : Value)
  | sadd (key : String) (members : List Value)
  | srem (key : String) (members : List Value)
  | smembers (key : String)
  | zadd (key : String) (scores : List (Value × Value))
  | zrem (key : String) (members : List Value)
  | rpush (key : String) (items : List Value)
  | lrange (key : String) (first last : Value)
  | exists (key : String)
  | delete (keys : List String)
  | expire (key : String) (seconds : Int)
  | ttl (key : String)
deriving Repr

def Command.name : Command → String
  | .ping => "ping"
  | .set .. => "set"
  | .get .. => "get"
  | .hset .. | .hsetAll .. => "hset"
  | .hget .. => "hget"
  | .hmget .. => "hmget"
  | .hgetall .. => "hgetall"
  | .hdel .. => "hdel"
  | .hexists .. => "hexists"
  | .sadd .. => "sadd"
  | .srem .. => "srem"
  | .smembers .. => "smembers"
  | .zadd .. => "zadd"
  | .zrem .. => "zrem"
  | .rpush .. => "rpush"
  | .lrange .. => "lrange"
  | .exists .. => "exists"
  | .delete .. => "delete"
  | .expire .. => "expire"
  | .ttl .. => "ttl"

def Command.keys : Command → List String
  | .ping => []
  | .set key .. | .get key | .hset key .. | .hsetAll key _ | .hget key _ | .hmget key _
  | .hgetall key | .hdel key _ | .hexists key _ | .sadd key _ | .srem key _ | .smembers key
  | .zadd key _ | .zrem key _ | .rpush key _ | .lrange key .. | .exists key | .expire key _
  | .ttl key => [key]
  | .delete keys => keys

/-- A call of the client. A transaction is opened, filled command by command,
and committed as a whole; the commit carries what was queued. -/
inductive Call
  | connect (address : String) (options : List (String × Value))
  | close
  | run (command : Command)
  | openTransaction
  | queue (command : Command)
  | commit (commands : List Command)
deriving Repr

/-- What a call answers: a value, or a transaction that commands can be queued
in. -/
inductive Reply
  | value (v : Value)
  | transaction
deriving Repr, Inhabited

end FileStash
