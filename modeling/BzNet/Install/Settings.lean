import BzNet.Buffer.Settings
import BzNet.Link.Core
import BzNet.Reorder.Restore
import BzNet.Socket.Options

/-!
# The settings

What `InstallNetcodeHooks` and `DllMain` read from the environment. Every number is clamped to its range, so that the
configurations built here carry their invariants whatever the environment holds.

* `reorderSettings`, `hostSettings`, `optionsSettings` : the configurations of the other modules;
* `settings_differ` : the one variable that the two proxies read differently;
* `settings_hold` : no environment has the reorder buffer hold anything for 200 ms.
-/

namespace BzNet

def kReorderDrainCapMax : Nat := 128
def kDupDelayMsDef : U32 := 25
def kDupMaxPpsDef : U32 := 40
def kDscpDefault : U32 := 46

/-- A number of the environment, in its range. -/
def clampedEnv (ulongBits : Nat) (env : Environment) (name : String) (fallback lo hi : U32) : U32 :=
  clampU32 (parseEnvU32 ulongBits env name fallback) lo hi

theorem clampedEnv_mem (ulongBits : Nat) (env : Environment) (name : String) (fallback : U32) {lo hi : U32}
    (h : lo.toNat ≤ hi.toNat) :
    lo.toNat ≤ (clampedEnv ulongBits env name fallback lo hi).toNat ∧
      (clampedEnv ulongBits env name fallback lo hi).toNat ≤ hi.toNat :=
  clampU32_mem h

/-- A number of things, from one to as many as there is room for. -/
def cappedEnv (ulongBits : Nat) (env : Environment) (name : String) (fallback cap : Nat) : Nat :=
  (clampedEnv ulongBits env name (BitVec.ofNat 32 fallback) 1 (BitVec.ofNat 32 cap)).toNat

theorem cappedEnv_mem (ulongBits : Nat) (env : Environment) (name : String) (fallback : Nat) {cap : Nat}
    (h : 1 ≤ cap ∧ cap < 2 ^ 32) :
    0 < cappedEnv ulongBits env name fallback cap ∧ cappedEnv ulongBits env name fallback cap ≤ cap := by
  have hcap : (BitVec.ofNat 32 cap).toNat = cap := by rw [BitVec.toNat_ofNat, Nat.mod_eq_of_lt h.2]
  have hle : (1#32).toNat ≤ (BitVec.ofNat 32 cap).toNat := by
    rw [hcap]
    exact h.1
  have hmem := clampedEnv_mem ulongBits env name (BitVec.ofNat 32 fallback) hle
  rw [hcap] at hmem
  exact hmem

def envOn (env : Environment) (name : String) : Bool := (env name).any ngEnvTruthy

/-! ## The reorder buffer -/

def windowSetting (ulongBits : Nat) (env : Environment) : U32 :=
  clampedEnv ulongBits env "BZ_REORDER_WINDOW_MS" kReorderDefaultMs 5 200

def reorderSettings (ulongBits : Nat) (env : Environment) : ReorderCfg where
  adapt := ngDefaultOn env "BZ_REORDER_ADAPT"
  winMaxMs := windowSetting ulongBits env
  winMinMs := clampedEnv ulongBits env "BZ_REORDER_MIN_MS" kReorderMinMsDef 0 (windowSetting ulongBits env)
  maxHoldMs := clampedEnv ulongBits env "BZ_REORDER_MAX_HOLD_MS" (windowSetting ulongBits env) 0 500
  depth := cappedEnv ulongBits env "BZ_REORDER_DEPTH" kReorderSlotCap kReorderSlotCap
  peers := cappedEnv ulongBits env "BZ_REORDER_PEERS" kReorderPeerCap kReorderPeerCap
  depth_pos := (cappedEnv_mem ulongBits env "BZ_REORDER_DEPTH" kReorderSlotCap (by decide)).1
  depth_le := (cappedEnv_mem ulongBits env "BZ_REORDER_DEPTH" kReorderSlotCap (by decide)).2
  peers_pos := (cappedEnv_mem ulongBits env "BZ_REORDER_PEERS" kReorderPeerCap (by decide)).1
  peers_le := (cappedEnv_mem ulongBits env "BZ_REORDER_PEERS" kReorderPeerCap (by decide)).2
  win_le := BitVec.le_def.mpr (clampedEnv_mem ulongBits env "BZ_REORDER_MIN_MS" kReorderMinMsDef (Nat.zero_le _)).2

/-! ## The proxies -/

/-- `BZ_RTT`: on unless it is set; one of the proxies takes an empty text for one that is not set. -/
def rttSetting (platform : Platform) (env : Environment) : Bool :=
  match platform with
  | .windows => (env "BZ_RTT").all ngEnvTruthy
  | .linux => ngDefaultOn env "BZ_RTT"

def proxySettings (platform : Platform) (ulongBits : Nat) (env : Environment) : ProxyCfg where
  platform := platform
  dampen := envOn env "BZ_SEND_DAMPEN"
  rtt := rttSetting platform env
  reorder := envOn env "BZ_REORDER"
  buffer := reorderSettings ulongBits env
  drain := cappedEnv ulongBits env "BZ_REORDER_DRAIN" kReorderDrainCapDef kReorderDrainCapMax

/-- Duplication is retired: its variable is not read. -/
def hostSettings (platform : Platform) (ulongBits : Nat) (env : Environment) (startMs : U64) : HostCfg where
  proxy := proxySettings platform ulongBits env
  tx :=
    { rateBps := clampedEnv ulongBits env "BZ_SEND_PACE" 0 0 10000000
      maxDelayMs := clampedEnv ulongBits env "BZ_SEND_PACE_MAX_MS" kPaceMaxDelayDef 0 200
      sendDup := false
      dupDelayMs := clampedEnv ulongBits env "BZ_DUP_DELAY_MS" kDupDelayMsDef 0 500
      dupMaxPps := clampedEnv ulongBits env "BZ_DUP_MAX_PPS" kDupMaxPpsDef 0 2000
      startMs := startMs }
  wake := ngDefaultOn env "BZ_REORDER_WAKE"

def optionsSettings (platform : Platform) (ulongBits : Nat) (env : Environment) : OptionsCfg where
  linux := platform = .linux
  dscp := (clampedEnv ulongBits env "BZ_DSCP" kDscpDefault 0 63).toNat

/-- **One variable apart.** The two proxies read the same settings out of every environment but one in which `BZ_RTT` is
set to nothing, which turns the sampling off on Windows and leaves it on under Linux. -/
theorem settings_differ (ulongBits : Nat) (env : Environment) :
    { proxySettings .windows ulongBits env with platform := .linux } = proxySettings .linux ulongBits env ↔
      env "BZ_RTT" ≠ some "" := by
  have hiff : { proxySettings .windows ulongBits env with platform := .linux } = proxySettings .linux ulongBits env ↔
      rttSetting .windows env = rttSetting .linux env :=
    ⟨fun h => congrArg ProxyCfg.rtt h, fun h => congrArg
      (fun rtt => ({ proxySettings .linux ulongBits env with rtt := rtt } : ProxyCfg)) h⟩
  rw [hiff]
  show (env "BZ_RTT").all ngEnvTruthy = ngDefaultOn env "BZ_RTT" ↔ _
  rw [ngDefaultOn]
  cases hv : env "BZ_RTT" with
  | none => exact ⟨fun _ => (Option.some_ne_none "").symm, fun _ => rfl⟩
  | some v =>
    by_cases hempty : v = ""
    · subst hempty
      exact ⟨fun h => absurd h (by decide), fun h => absurd rfl h⟩
    · refine ⟨fun _ h => hempty (Option.some.inj h), fun _ => ?_⟩
      show ngEnvTruthy v = if v = "" then true else ngEnvTruthy v
      rw [if_neg hempty]

/-! ## How long the buffer holds a packet -/

theorem windowsOk_init (cfg : ReorderCfg) : WindowsOk (reorderInit cfg) := fun _ hkey => absurd rfl hkey

theorem reorderStep_windowsOk {c : ReorderCtx} (h : WindowsOk c) (op : ReorderOp) : WindowsOk (reorderStep c op).1 := by
  cases op with
  | arrive d t => exact rxArrive_windowsOk h d t
  | release t => exact rxRelease_windowsOk h t
  | nextReady t =>
    obtain ⟨rr, hrr⟩ := reorderNextReady_asked c t
    rw [reorderStep, hrr]
    exact h
  | reset => exact fun _ hkey => absurd rfl hkey
  | count st => exact h

/-- **No environment slows the game by much.** Whatever the variables hold, and after any run of the buffer with the
settings read from them: when nothing is ready to be handed over, every packet of an addressed source that the buffer
still holds arrived less than 200 ms ago. -/
theorem settings_hold (ulongBits : Nat) (env : Environment) (ops : List ReorderOp) (now : U64) :
    let cfg := reorderSettings ulongBits env
    let c := Machine.final reorderStep (reorderInit cfg) ops
    reorderNextReady c now = none → ∀ i, i < cfg.peers → ∀ s ∈ (c.tbl i).held cfg, reorderKey s.pkt.src ≠ 0 →
      s.ts ≤ now → now.toNat - s.ts.toNat < 200 := by
  intro cfg c hnone i hi s hs haddr hts
  obtain ⟨hcfg, hok⟩ : c.cfg = cfg ∧ RxOk c := reorder_reachable_ok cfg ops
  have hwins : WindowsOk c :=
    Machine.final_inv (windowsOk_init cfg) (fun c op h => reorderStep_windowsOk h op) ops
  have hkey : (c.tbl i).key ≠ 0 := fun h0 => haddr (hok.unused i (hcfg ▸ hi) h0 s (hcfg ▸ hs))
  have hwin := hwins i hkey
  rw [hcfg] at hwin
  have hno := (reorderNextReady_none hok).mp hnone i (hcfg ▸ hi) hkey
  rw [hcfg] at hno
  have hyoung : now.toNat - s.ts.toNat < effectiveWindow cfg (c.tbl i) := by
    by_contra hover
    exact hno (Or.inr (Or.inr ⟨s, hs, hts, Nat.not_lt.mp hover⟩))
  have hceiling : (c.tbl i).winMs.toNat ≤ cfg.winMaxMs.toNat := BitVec.le_def.mp hwin.ceiling
  have hrange : (5#32).toNat ≤ (200#32).toNat := by decide
  have hsetting : cfg.winMaxMs.toNat ≤ 200 :=
    (clampedEnv_mem ulongBits env "BZ_REORDER_WINDOW_MS" kReorderDefaultMs hrange).2
  have heffective : effectiveWindow cfg (c.tbl i) ≤ (c.tbl i).winMs.toNat := by
    rw [effectiveWindow]
    split
    · exact Nat.le_refl _
    · exact Nat.min_le_left _ _
  omega

end BzNet
