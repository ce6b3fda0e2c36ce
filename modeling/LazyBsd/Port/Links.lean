/-
# LazyBsd.Port.Links — waiting for the links of the ports.

`check_all_ports_link_status` asks every tenth of a second until all links are up or nine seconds have
passed, then tells the state of each port. What the links answer is the environment's: `link count`
says which ports are up in round `count`.
-/
import Mathlib.Tactic.Common

namespace LazyBsd.Port

def checkInterval : Nat := 100
def maxCheckTime : Nat := 90

/-- What the function prints, and its pauses. -/
inductive LinkEvent
  | dot
  | delay (ms : Nat)
  | done
  | status (portid : UInt16) (up : Bool)
deriving DecidableEq, Repr

/-- The inner loop: with `print_flag` the status of each port, without it `all_ports_up`, at the first
port that is down. -/
def portLoop (up : UInt16 → Bool) (printFlag : Bool) : List UInt16 → List LinkEvent × Bool
  | [] => ([], true)
  | portid :: rest =>
      if printFlag then
        let (events, allPortsUp) := portLoop up printFlag rest
        (.status portid (up portid) :: events, allPortsUp)
      else if up portid = false then ([], false)
      else portLoop up printFlag rest

/-- The outer loop, from `count` on; the first argument is the number of rounds left. -/
def linkLoop (portidList : List UInt16) (link : Nat → UInt16 → Bool) : Nat → Nat → Bool → List LinkEvent
  | 0, _, _ => []
  | rounds + 1, count, printFlag =>
      let (events, allPortsUp) := portLoop (link count) printFlag portidList
      if printFlag then events
      else
        events ++ (if allPortsUp then [] else [.dot, .delay checkInterval]) ++
          if allPortsUp ∨ count = maxCheckTime - 1 then
            .done :: linkLoop portidList link rounds (count + 1) true
          else linkLoop portidList link rounds (count + 1) false

def checkAllPortsLinkStatus (portidList : List UInt16) (link : Nat → UInt16 → Bool) : List LinkEvent :=
  linkLoop portidList link (maxCheckTime + 1) 0 false

section Links

variable {portidList : List UInt16} {link : Nat → UInt16 → Bool} {up : UInt16 → Bool}

theorem portLoop_print : (portLoop up true portidList).1 = portidList.map fun p => .status p (up p) := by
  induction portidList with
  | nil => rfl
  | cons portid rest ih => exact congrArg (LinkEvent.status portid (up portid) :: ·) ih

theorem portLoop_check : portLoop up false portidList = ([], portidList.all up) := by
  induction portidList with
  | nil => rfl
  | cons portid rest ih =>
      rw [List.all_cons]
      cases hup : up portid with
      | false => simp [portLoop, hup]
      | true => simpa [portLoop, hup] using ih

/-- The last round tells the status of every port. -/
theorem linkLoop_print (rounds count : Nat) :
    linkLoop portidList link (rounds + 1) count true =
      portidList.map fun p => .status p (link count p) := by
  simp only [linkLoop, if_true]
  exact portLoop_print

/-- A round that finds all links up is the last but one. -/
theorem linkLoop_up (rounds : Nat) {count : Nat} (hcount : count < maxCheckTime)
    (h : portidList.all (link count) = true) :
    linkLoop portidList link (rounds + 2) count false =
      .done :: portidList.map fun p => .status p (link (min (count + 1) maxCheckTime) p) := by
  have hmin : min (count + 1) maxCheckTime = count + 1 := by omega
  have hround : linkLoop portidList link (rounds + 2) count false =
      .done :: linkLoop portidList link (rounds + 1) (count + 1) true := by
    rw [linkLoop, portLoop_check]
    simp [h]
  rw [hround, linkLoop_print, hmin]

/-- A round that finds a link down waits; after the last wait the flag is set all the same. -/
theorem linkLoop_down (rounds : Nat) {count : Nat} (h : portidList.all (link count) = false) :
    linkLoop portidList link (rounds + 1) count false =
      .dot :: .delay checkInterval ::
        if count = maxCheckTime - 1 then .done :: linkLoop portidList link rounds (count + 1) true
        else linkLoop portidList link rounds (count + 1) false := by
  simp [linkLoop, portLoop_check, h]

/-- From round `count` on: `k` is the first round in which all links are up, or the time is over. -/
theorem linkLoop_eq (portidList : List UInt16) (link : Nat → UInt16 → Bool) (d count : Nat)
    (hcount : count + d + 1 = maxCheckTime) :
    ∃ k, count ≤ k ∧ k ≤ maxCheckTime ∧
      (∀ c, count ≤ c → c < k → ∃ p ∈ portidList, link c p = false) ∧
      (k < maxCheckTime → ∀ p ∈ portidList, link k p = true) ∧
      linkLoop portidList link (d + 2) count false =
        (List.replicate (k - count) [LinkEvent.dot, .delay checkInterval]).flatten ++
          .done :: portidList.map fun p => .status p (link (min (k + 1) maxCheckTime) p) := by
  -- by induction on the waits that are left
  induction d generalizing count with
  | zero =>
      cases hup : portidList.all (link count) with
      | true =>
          refine ⟨count, Nat.le_refl _, by omega, fun c _ _ => by omega, fun _ => by simpa using hup, ?_⟩
          rw [linkLoop_up _ (by omega) hup, Nat.sub_self]
          rfl
      | false =>
          refine ⟨count + 1, by omega, by omega, fun c hle hlt => ?_, fun _ => by omega, ?_⟩
          · obtain rfl : c = count := by omega
            simpa using hup
          · have hmin : min (count + 1 + 1) maxCheckTime = count + 1 := by omega
            have hone : count + 1 - count = 1 := by omega
            rw [linkLoop_down _ hup, if_pos (by omega), linkLoop_print, hmin, hone]
            rfl
  | succ d ih =>
      cases hup : portidList.all (link count) with
      | true =>
          refine ⟨count, Nat.le_refl _, by omega, fun c _ _ => by omega, fun _ => by simpa using hup, ?_⟩
          rw [linkLoop_up _ (by omega) hup, Nat.sub_self]
          rfl
      | false =>
          obtain ⟨k, hle, hmax, hdown, hlast, heq⟩ := ih (count + 1) (by omega)
          refine ⟨k, by omega, hmax, fun c hc hlt => ?_, hlast, ?_⟩
          · rcases Nat.eq_or_lt_of_le hc with rfl | hmore
            · simpa using hup
            · exact hdown c hmore hlt
          · have hsucc : k - count = (k - (count + 1)) + 1 := by omega
            rw [linkLoop_down _ hup, if_neg (by omega), heq, hsucc, List.replicate_succ]
            rfl

/-- **The wait ends.** Every tenth of a second until all links are up, at most ninety times, and then the
status of every port once, as it is one round later. -/
theorem links_are_waited_for (portidList : List UInt16) (link : Nat → UInt16 → Bool) :
    ∃ k ≤ maxCheckTime, (∀ c < k, ∃ p ∈ portidList, link c p = false) ∧
      (k < maxCheckTime → ∀ p ∈ portidList, link k p = true) ∧
      checkAllPortsLinkStatus portidList link =
        (List.replicate k [LinkEvent.dot, .delay checkInterval]).flatten ++
          .done :: portidList.map fun p => .status p (link (min (k + 1) maxCheckTime) p) := by
  obtain ⟨k, -, hle, hdown, hup, heq⟩ := linkLoop_eq portidList link 89 0 rfl
  exact ⟨k, hle, fun c hc => hdown c (Nat.zero_le c) hc, hup, heq⟩

end Links

end LazyBsd.Port
