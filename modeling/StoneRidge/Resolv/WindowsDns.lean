import StoneRidge.Kit.Exec
import StoneRidge.Resolv.Conversation

/-!
# The two DNS daemons for Windows

`WindowsDnsModifier` (`srdns.py:220-259`) behind `BaseDnsModifier.handle`, and the service
that it is to replace (`srdns.cs:34-146`). What a daemon does for a request are the
programs it runs, the values it writes to the registry and its answer.
-/

set_option autoImplicit false

namespace StoneRidge.Resolv
open StoneRidge.Kit.Exec

/-! ### Command lines -/

def backslash : UInt8 := 92
def quote : UInt8 := 34

/-- An argument behind `n` backslashes that may have to be doubled
(`python/src/Lib/subprocess.py:591-613`). -/
def escapeArg (quoted : Bool) : ℕ → Bytes → Bytes
  | n, [] => List.replicate (if quoted then 2 * n else n) backslash
  | n, c :: cs =>
    if c = backslash then escapeArg quoted (n + 1) cs
    else if c = quote then
      List.replicate (2 * n) backslash ++ [backslash, quote] ++ escapeArg quoted 0 cs
    else List.replicate n backslash ++ c :: escapeArg quoted 0 cs

def quoteArg (arg : Bytes) : Bytes :=
  if 32 ∈ arg ∨ 9 ∈ arg ∨ arg = [] then quote :: escapeArg true 0 arg ++ [quote]
  else escapeArg false 0 arg

/-- `subprocess.list2cmdline`. -/
def list2cmdline (args : List Bytes) : Bytes := List.intercalate [32] (args.map quoteArg)

/-! ### What a daemon does -/

inductive Effect where
  /-- `netsh.exe`, with the part of the command line behind its name. -/
  | netsh (arguments : Bytes)
  /-- A value of a key; the keys below the local machine are named by their paths. -/
  | setValue (key name data : String)
  deriving DecidableEq

structure Response where
  effects : List Effect
  /-- Nothing where the connection is closed without an answer. -/
  reply : Option Bytes
  deriving DecidableEq

/-- The registry does not tell upper and lower case apart. -/
def keyPath (path : String) : String := String.ofList (path.toList.map Char.toLower)

/-- A request that is received completely. -/
structure Message where
  msgtype : UInt8
  data : Bytes
  length_le : data.length ≤ 255

def Message.bytes (m : Message) : Bytes := m.msgtype :: UInt8.ofNat m.data.length :: m.data

/-! ### The Python daemon -/

namespace WindowsDnsModifier

/-- Effects so far, and whether an exception has been raised. -/
abbrev Action := EStateM Unit (List Effect) Unit

/-- `CreateProcess` takes no command line with a null byte in it. -/
def netsh (args : List Bytes) : Action :=
  if 0 ∈ list2cmdline args then throw () else modify (· ++ [.netsh (list2cmdline args)])

def parametersKey : String := "System\\CurrentControLSet\\Services\\TCPIP\\Parameters"

/-- `winreg.SetValue` writes the value without a name of a key below the open one, which
`setup` has opened for reading; `writable` tells whether that is permitted. -/
def setValue (writable : Bool) (subKey data : String) : Action :=
  if writable then modify (· ++ [.setValue (keyPath (parametersKey ++ "\\" ++ subKey)) "" data])
  else throw ()

def setDns (writable : Bool) (dnsserver : Bytes) : Action := do
  netsh [ascii "interface", ascii "set", ascii "interface", ascii "name=WAN",
    ascii "admin=DISABLED"]
  setValue writable "SearchList" ""
  netsh [ascii "ipv4", ascii "set", ascii "dnsservers", ascii "StoneRidge", ascii "static",
    dnsserver, ascii "validate=no"]

def resetDns (writable : Bool) : Action := do
  netsh [ascii "ipv4", ascii "set", ascii "dnsservers", ascii "StoneRidge", ascii "static",
    ascii "none", ascii "validate=no"]
  netsh [ascii "interface", ascii "set", ascii "interface", ascii "name=WAN",
    ascii "admin=ENABLED"]
  setValue writable "SearchList" "mozilla.com"

def call (writable : Bool) : Handled → Action
  | .setDns server => setDns writable server
  | .resetDns => resetDns writable
  | .unknown => pure ()

/-- The answer follows the call unless that raises. -/
def respond (writable : Bool) (m : Message) : Response :=
  match handle unsplit m.bytes with
  | none => ⟨[], none⟩
  | some h =>
    match call writable h [] with
    | .ok _ effects => ⟨effects, some h.status⟩
    | .error _ effects => ⟨effects, none⟩

end WindowsDnsModifier

/-! ### The service -/

namespace NeckoDnsSvc

/-- `Encoding.ASCII.GetString`. -/
def getString (bytes : Bytes) : Bytes := bytes.map fun b => if b < 128 then b else 63

def parametersKey : String := "System\\CurrentControlSet\\Services\\TCPIP\\Parameters"

def setDns (dns : Bytes) : List Effect :=
  [.netsh (ascii "interface set interface name=WAN admin=DISABLED"),
    .setValue (keyPath parametersKey) "SearchList" "",
    .netsh (ascii "interface ipv4 set dnsservers StoneRidge static " ++ dns ++
      ascii " validate=no")]

def resetDns : List Effect :=
  [.netsh (ascii "interface ipv4 set dnsservers StoneRidge static none validate=no"),
    .netsh (ascii "interface set interface name=WAN admin=ENABLED"),
    .setValue (keyPath parametersKey) "SearchList" "mozilla.com"]

/-- The loop body of `svcMain`; every request gets the same answer. -/
def respond (m : Message) : Response :=
  let effects :=
    if m.msgtype = setType then setDns (getString m.data)
    else if m.msgtype = resetType then resetDns
    else []
  ⟨effects, some (ascii "ok")⟩

end NeckoDnsSvc

/-! ### They agree on no request -/

/-- The same programs and registry writes in order, and the same answer to each request. -/
def Agree (writable : Bool) (msgs : List Message) : Prop :=
  msgs.flatMap (fun m => (WindowsDnsModifier.respond writable m).effects) =
      msgs.flatMap (fun m => (NeckoDnsSvc.respond m).effects) ∧
    msgs.map (fun m => (WindowsDnsModifier.respond writable m).reply) =
      msgs.map fun m => (NeckoDnsSvc.respond m).reply

section Agreement
variable {writable : Bool} {m : Message}

theorem handle_bytes (m : Message) : handle unsplit m.bytes =
    some (if m.msgtype = setType then .setDns m.data
      else if m.msgtype = resetType then .resetDns else .unknown) := by
  have hdata : (if UInt8.ofNat m.data.length = 0 then []
      else (unsplit.recv 1 (UInt8.ofNat m.data.length).toNat m.data).1) =
      m.data.take (unsplit.size 1 m.data.length) := received_data m.length_le
  have hall : m.data.take (unsplit.size 1 m.data.length) = m.data := List.take_length
  rw [hall] at hdata
  unfold handle Message.bytes
  rw [recv_header rfl]
  simp only [hdata]
  split
  · rfl
  · split <;> rfl

theorem netsh_ok {args : List Bytes} {line : Bytes} (h : list2cmdline args = line) (h0 : 0 ∉ line)
    (effects : List Effect) :
    WindowsDnsModifier.netsh args effects = .ok () (effects ++ [.netsh line]) := by
  unfold WindowsDnsModifier.netsh
  rw [h, if_neg h0]
  rfl

theorem disableWan_ok (effects : List Effect) :
    WindowsDnsModifier.netsh [ascii "interface", ascii "set", ascii "interface", ascii "name=WAN",
      ascii "admin=DISABLED"] effects =
      .ok () (effects ++ [.netsh (ascii "interface set interface name=WAN admin=DISABLED")]) :=
  netsh_ok (by decide) (by decide) effects

theorem resetInterface_ok (effects : List Effect) :
    WindowsDnsModifier.netsh [ascii "ipv4", ascii "set", ascii "dnsservers", ascii "StoneRidge",
      ascii "static", ascii "none", ascii "validate=no"] effects =
      .ok () (effects ++ [.netsh (ascii "ipv4 set dnsservers StoneRidge static none validate=no")]) :=
  netsh_ok (by decide) (by decide) effects

theorem netsh_adds (args : List Bytes) (effects : List Effect) :
    effects <+: endState (WindowsDnsModifier.netsh args effects) := by
  unfold WindowsDnsModifier.netsh
  split
  · exact List.prefix_rfl
  · exact List.prefix_append _ _

theorem setValue_adds (writable : Bool) (subKey data : String) (effects : List Effect) :
    effects <+: endState (WindowsDnsModifier.setValue writable subKey data effects) := by
  unfold WindowsDnsModifier.setValue
  split
  · exact List.prefix_append _ _
  · exact List.prefix_rfl

theorem bind_adds {x : WindowsDnsModifier.Action} {f : Unit → WindowsDnsModifier.Action}
    (hx : ∀ effects, effects <+: endState (x effects))
    (hf : ∀ u effects, effects <+: endState (f u effects)) (effects : List Effect) :
    effects <+: endState ((x >>= f) effects) := by
  have hfirst := hx effects
  rw [bind_apply]
  cases h : x effects with
  | ok u t =>
    rw [h] at hfirst
    exact hfirst.trans (hf u t)
  | error e t =>
    rw [h] at hfirst
    exact hfirst

theorem respond_eq (writable : Bool) (m : Message) : ∃ h, handle unsplit m.bytes = some h ∧
    (WindowsDnsModifier.respond writable m).effects =
      endState (WindowsDnsModifier.call writable h []) := by
  refine ⟨_, handle_bytes m, ?_⟩
  unfold WindowsDnsModifier.respond
  rw [handle_bytes]
  simp only
  split <;> rename_i hcall <;> rw [hcall] <;> rfl

/-- A set begins as in the service, but the registry value that is written next is another
one. -/
theorem respond_set (h : m.msgtype = setType) :
    [.netsh (ascii "interface set interface name=WAN admin=DISABLED"),
      .setValue (keyPath (WindowsDnsModifier.parametersKey ++ "\\" ++ "SearchList")) "" ""] <+:
      (WindowsDnsModifier.respond true m).effects := by
  obtain ⟨call, hcall, heffects⟩ := respond_eq true m
  rw [handle_bytes, if_pos h] at hcall
  obtain rfl := Option.some.inj hcall
  rw [heffects]
  unfold WindowsDnsModifier.call WindowsDnsModifier.setDns
  simp only
  rw [bind_ok (disableWan_ok [])]
  exact netsh_adds _ _

/-- Where the registry refuses the write, a set is not answered. -/
theorem respond_set_refused (h : m.msgtype = setType) :
    (WindowsDnsModifier.respond false m).reply = none := by
  unfold WindowsDnsModifier.respond
  rw [handle_bytes, if_pos h]
  unfold WindowsDnsModifier.call WindowsDnsModifier.setDns
  simp only
  rw [bind_ok (disableWan_ok [])]
  rfl

/-- A reset begins with a command of `netsh` that the service does not give. -/
theorem respond_reset (writable : Bool) (hset : m.msgtype ≠ setType)
    (h : m.msgtype = resetType) :
    [.netsh (ascii "ipv4 set dnsservers StoneRidge static none validate=no")] <+:
      (WindowsDnsModifier.respond writable m).effects := by
  obtain ⟨call, hcall, heffects⟩ := respond_eq writable m
  rw [handle_bytes, if_neg hset, if_pos h] at hcall
  obtain rfl := Option.some.inj hcall
  rw [heffects]
  unfold WindowsDnsModifier.call WindowsDnsModifier.resetDns
  simp only
  rw [bind_ok (resetInterface_ok [])]
  exact bind_adds (netsh_adds _) (fun _ => setValue_adds writable _ _) _

theorem respond_unknown (writable : Bool) (hset : m.msgtype ≠ setType)
    (hreset : m.msgtype ≠ resetType) :
    WindowsDnsModifier.respond writable m = ⟨[], some (ascii "no")⟩ := by
  unfold WindowsDnsModifier.respond
  rw [handle_bytes, if_neg hset, if_neg hreset]
  rfl

/-- The two daemons agree on no sequence of requests but the empty one. -/
theorem agree_iff (writable : Bool) (msgs : List Message) : Agree writable msgs ↔ msgs = [] := by
  refine ⟨?_, fun h => h ▸ ⟨rfl, rfl⟩⟩
  rintro ⟨heffects, hreplies⟩
  cases msgs with
  | nil => rfl
  | cons m msgs =>
    exfalso
    rw [List.flatMap_cons, List.flatMap_cons] at heffects
    have hreply : (WindowsDnsModifier.respond writable m).reply = (NeckoDnsSvc.respond m).reply :=
      (List.cons.inj hreplies).1
    by_cases hset : m.msgtype = setType
    · cases writable with
      | false =>
        rw [respond_set_refused hset] at hreply
        cases hreply
      | true =>
        obtain ⟨rest, hrest⟩ := respond_set hset
        unfold NeckoDnsSvc.respond at heffects
        rw [← hrest, if_pos hset] at heffects
        have hsecond := (List.cons.inj (List.cons.inj heffects).2).1
        exact absurd hsecond (by decide)
    · by_cases hreset : m.msgtype = resetType
      · obtain ⟨rest, hrest⟩ := respond_reset writable hset hreset
        unfold NeckoDnsSvc.respond at heffects
        rw [← hrest, if_neg hset, if_pos hreset] at heffects
        exact absurd (List.cons.inj heffects).1 (by decide)
      · rw [respond_unknown writable hset hreset] at hreply
        change some (ascii "no") = some (ascii "ok") at hreply
        exact absurd hreply (by decide)

/-- A single reset. -/
theorem reset_not_agreed : ¬ Agree true [⟨resetType, [], by decide⟩] := by
  rintro ⟨heffects, -⟩
  exact absurd heffects (by decide)

end Agreement

end StoneRidge.Resolv
