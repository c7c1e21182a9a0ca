/-
LibC.Config.ServerConfig — `ServerConfig` of `bis/src/proxy/server_config.cpp` and of
`bis/src/server/server_config.cpp`.

`Init` reads the configuration file into the fields. Nobody looks at the return
values of `GetString` and `GetInt`: a string that is missing gets its default, and so
does a number, unless the file itself is missing. Then a number stays what it was, which
is nothing in particular.

The strings are appended to, as `GetString` does it; they are empty when `Init` is
called. Of `InitLog` there is what concerns `log_path_` and the return value.

No `sorry`, no `axiom`, no `native_decide`.
-/
import LibC.Config.IniFile
import Mathlib.Data.Nat.Digits.Defs

namespace LibC

open LibC.Lib

/-- `to_string` of a number that is not negative. -/
def decimal (n : Nat) : Bytes :=
  if n = 0 then [48] else (Nat.digits 10 n).reverse.map fun d => UInt8.ofNat (48 + d)

/-- What `mkdir` answers for the path of the log: `ENOENT`, or anything else. -/
inductive MkdirRet where
  | enoent
  | other

/-- `InitLog`: the return value, and the path. The last byte of an empty path is read. -/
def initLog (mkdir : MkdirRet) (logPath : Bytes) : Option (Int × Bytes) :=
  match mkdir with
  | .enoent => some (-1, logPath)
  | .other =>
      match logPath.getLast? with
      | none => none
      | some back => some (0, if back = 47 then logPath else logPath ++ [47])

/-! ## The proxy -/

/-- `ServerConfig` of the proxy. -/
structure ServerConfig where
  daemon : Int
  ip : Bytes
  port : Int
  timeOut : Int
  freeTimeSleep : Int
  bucketNum : Int
  pushAddrs : List Bytes
  pullAddr : Bytes
  logPath : Bytes
  logLevel : Int

namespace ServerConfig

/-- The loop of `LoadMQ`, with the rounds that are left. -/
def loadAddrs (ini : IniFile) : Nat → Nat → List Bytes → Option (List Bytes)
  | 0, _, pushAddrs => some pushAddrs
  | left + 1, i, pushAddrs => do
      let getaddr := ascii "PushAddr" ++ decimal (i + 1)
      let (_, addr) ← ini.getStdString (ascii "MQ") getaddr [] []
      loadAddrs ini left (i + 1) (pushAddrs ++ [addr])

/-- `LoadMQ`. -/
def loadMQ (ini : IniFile) (cfg : ServerConfig) : Option ServerConfig := do
  let (_, svrNum) ← ini.getInt (ascii "MQ") (ascii "SvrNum") 0 0
  let pushAddrs ← loadAddrs ini svrNum.toNat 0 cfg.pushAddrs
  let (_, pullAddr) ← ini.getStdString (ascii "MQ") (ascii "PullAddr") [] cfg.pullAddr
  some { cfg with pushAddrs, pullAddr }

/-- `Init`, with the file that was opened. -/
def init (mkdir : MkdirRet) (ini : IniFile) (cfg : ServerConfig) :
    Option (Int × ServerConfig) := do
  let (_, logPath) ← ini.getStdString (ascii "LOG") (ascii "Path") (ascii "./log/") cfg.logPath
  let (_, logLevel) ← ini.getInt (ascii "LOG") (ascii "Level") 0 cfg.logLevel
  let (ret, logPath) ← initLog mkdir logPath
  let cfg := { cfg with logPath, logLevel }
  if ret < 0 then some (0, cfg)
  else do
    let (_, daemon) ← ini.getInt (ascii "SERVER") (ascii "Daemon") 1 cfg.daemon
    let (_, ip) ← ini.getStdString (ascii "SERVER") (ascii "IP") [] cfg.ip
    let (_, port) ← ini.getInt (ascii "SERVER") (ascii "Port") 20309 cfg.port
    let (_, timeOut) ← ini.getInt (ascii "SERVER") (ascii "TimeOut") 0 cfg.timeOut
    let (_, freeTimeSleep) ←
      ini.getInt (ascii "SERVER") (ascii "FreeSleepTime") 0 cfg.freeTimeSleep
    let (_, bucketNum) ← ini.getInt (ascii "SERVER") (ascii "BucketNum") 2048 cfg.bucketNum
    let cfg ← loadMQ ini { cfg with daemon, ip, port, timeOut, freeTimeSleep, bucketNum }
    some (ret, cfg)

end ServerConfig

/-! ## The server -/

/-- `ServerConfig` of the server. -/
structure SvrServerConfig where
  daemon : Int
  ip : Bytes
  port : Int
  timeOut : Int
  freeTimeSleep : Int
  pullAddr : Bytes
  dbFile : Bytes
  fileMaxSize : UInt64
  persistendTime : Int
  logPath : Bytes
  logLevel : Int

/-- `Init`, with the file that was opened. -/
def SvrServerConfig.init (mkdir : MkdirRet) (ini : IniFile) (cfg : SvrServerConfig) :
    Option (Int × SvrServerConfig) := do
  let (_, logPath) ← ini.getStdString (ascii "LOG") (ascii "Path") (ascii "./log/") cfg.logPath
  let (_, logLevel) ← ini.getInt (ascii "LOG") (ascii "Level") 0 cfg.logLevel
  let (ret, logPath) ← initLog mkdir logPath
  let cfg := { cfg with logPath, logLevel }
  if ret < 0 then some (0, cfg)
  else do
    let (_, daemon) ← ini.getInt (ascii "SERVER") (ascii "Daemon") 1 cfg.daemon
    let (_, ip) ← ini.getStdString (ascii "SERVER") (ascii "IP") [] cfg.ip
    let (_, port) ← ini.getInt (ascii "SERVER") (ascii "Port") 20309 cfg.port
    let (_, timeOut) ← ini.getInt (ascii "SERVER") (ascii "TimeOut") 0 cfg.timeOut
    let (_, freeTimeSleep) ←
      ini.getInt (ascii "SERVER") (ascii "FreeSleepTime") 0 cfg.freeTimeSleep
    let (_, pullAddr) ← ini.getStdString (ascii "MQ") (ascii "PullAddr") [] cfg.pullAddr
    let (_, dbFile) ← ini.getStdString (ascii "DB") (ascii "DBFile") (ascii "./") cfg.dbFile
    let (_, fileMaxSize) ←
      ini.getULongLong (ascii "DB") (ascii "FileMaxSize") 1024000000 cfg.fileMaxSize
    let (_, persistendTime) ←
      ini.getInt (ascii "DB") (ascii "PersistendTime") 3600 cfg.persistendTime
    some (ret, { cfg with
      daemon, ip, port, timeOut, freeTimeSleep, pullAddr, dbFile, fileMaxSize, persistendTime })

end LibC
