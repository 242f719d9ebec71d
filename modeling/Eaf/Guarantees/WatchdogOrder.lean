import Eaf.Powerpack.WatchdogInit
import Eaf.Utils.MapList

/-!
# The maps of the watchdog stay in order

One record is in up to two of three maps, and its key fields are written again
at every turn.  They are written only while the record is in no map that reads
them, so every insertion finds a sorted map and a free place.  Whatever the
clock says and however the sends turn out, the outstanding heartbeats are the
records of `busy_stack`, and these are the records of `busy_table`.
-/

namespace Eaf
namespace Powerpack

open Core LabelledRun Utils

variable {T : List WatchItem}

/-! ## In the maps of `map.c` -/

section Nodes

variable {K : Type*} [LinearOrder K] {order : Comparison K}
  {handler : EafMap} {tree : RedBlack.Tree Ptr} {node : Nat → Ptr}
  {s : Watchdog} {m : MapName} {r : Nat}

/-- A record is inserted as `eaf_map_insert` does it with the node of the
record, when the map shows the nodes of the records. -/
theorem Watchdog.insert_shown (h : handler.Shows order.key tree)
    (hnodes : tree.toList = (s.map m).map node)
    (hnode : Function.Injective node) (haddress : NodeAddress (node r))
    (hcmp : ∀ a b, order.cmp (node a) (node b) = s.cmp T m a b)
    (hlinked : s.linked r m = false) :
    match s.insert T m r with
    | none => eafMapInsert order.cmp handler (node r) =
        some (handler, Errno.duplicate)
    | some s' => ∃ handler' tree', eafMapInsert order.cmp handler (node r) =
        some (handler', Errno.success) ∧ handler'.Shows order.key tree' ∧
        tree'.toList = (s'.map m).map node := by
  have hfresh : node r ∉ tree.toList := by
    rw [hnodes, List.mem_map_of_injective hnode]
    cases m <;> simp_all [Watchdog.linked, Watchdog.map]
  have hinsert := h.insert_nodes haddress hfresh
  rw [hnodes, SortedMap.insert_map hcmp] at hinsert
  unfold Watchdog.insert
  rw [hlinked]
  cases hxs : SortedMap.insert (s.cmp T m) r (s.map m) with
  | none =>
      rw [hxs] at hinsert
      exact hinsert
  | some xs =>
      rw [hxs] at hinsert
      obtain ⟨handler', tree', hres, hshows, hlist⟩ := hinsert
      refine ⟨handler', tree', hres, hshows, ?_⟩
      rw [hlist, Watchdog.setMap_map, if_pos rfl]

/-- A record is erased as `eaf_map_erase` does it with the node of the
record. -/
theorem Watchdog.erase_shown (h : handler.Shows order.key tree)
    (hnodes : tree.toList = (s.map m).map node)
    (hnode : Function.Injective node) (hr : r ∈ s.map m) :
    ∃ s' handler' tree', s.erase m r = some s' ∧
      eafMapErase handler (node r) = some handler' ∧
      handler'.Shows order.key tree' ∧
      tree'.toList = (s'.map m).map node := by
  obtain ⟨handler', tree', hres, hshows, hlist⟩ :=
    h.erase_nodes (n := node r) (by rw [hnodes]; exact List.mem_map_of_mem hr)
  refine ⟨_, handler', tree', if_pos hr, hres, hshows, ?_⟩
  rw [hlist, hnodes, Watchdog.setMap_map, if_pos rfl,
    List.map_erase hnode]

end Nodes

/-! ## Runs -/

/-- Every watch list with different service ids is accepted.  From then on the
maps hold what they should and are in order, before every single statement;
every insertion succeeds, and a key field is written only while the record is
outside of the maps that are ordered by it.  The watchdog comes to the end of
every tick and of every response whose token is that of an outstanding
heartbeat. -/
theorem maps_in_order (hsids : (T.map (·.sid)).Nodup) (fn : Fn) (arg : Nat) :
    ∃ s₀ log₀, Watchdog.initial.eafWatchdogInit T fn arg true Errno.success =
        some (s₀, Errno.success, log₀) ∧
      (∀ e ∈ log₀, Executed.Sound T e) ∧
      ∀ tr s, WatchdogRun T s₀ tr s →
        (∀ x ∈ tr, ∀ e ∈ x.log, Executed.Sound T e) ∧
        (∀ m, SortedMap.Sorted (s.cmp T m) (s.map m)) ∧
        (∀ r, r ∈ s.busyStack ↔ r ∈ s.busyTable) ∧
        (∀ r ∈ s.idleStack, r ∉ s.busyStack ∧ r ∉ s.busyTable) ∧
        (∀ now sends, (s.step T (.tick now sends)).isSome) ∧
        ∀ sender msg now r, r ∈ s.busyTable →
          (s.record r).token = msgGetToken msg →
          (s.step T (.rsp sender msg now)).isSome := by
  have hdistinct := Watchdog.Distinct.of_nodup hsids
  obtain ⟨s₀, log₀, hinit, h₀, hlog₀⟩ :=
    Watchdog.eafWatchdogInit_success hdistinct fn arg
  refine ⟨s₀, log₀, hinit, hlog₀, fun tr s hrun => ?_⟩
  obtain ⟨hs, hp, hsound⟩ := hrun.inOrder hdistinct h₀.inOrder h₀.paired
  refine ⟨hsound, hs.ordered, hp, fun r hr => ?_, fun now sends => ?_, ?_⟩
  · have hstack := hs.apart r hr
    exact ⟨hstack, (hp r).not.mp hstack⟩
  · obtain ⟨t, log, hstep, -⟩ := hs.tick hp hdistinct now sends
    rw [hstep]
    rfl
  · intro sender msg now r hr htoken
    have hindex := hs.find_index hr
    rw [(hs.known .busyTable r hr).2.2] at htoken
    rw [htoken] at hindex
    obtain ⟨t, log, hstep, -⟩ := hs.rsp hp hdistinct sender now hindex
    rw [hstep]
    rfl

/-- Two services, with a heartbeat every second. -/
def watchTwo : List WatchItem := [⟨5, 1000, 200, 2⟩, ⟨3, 1000, 100, 0⟩]

theorem maps_in_order_two : ∃ s₀ log₀,
    Watchdog.initial.eafWatchdogInit watchTwo 9 0 true Errno.success =
      some (s₀, Errno.success, log₀) ∧
      (∀ e ∈ log₀, Executed.Sound watchTwo e) ∧
      ∀ now sends, (s₀.step watchTwo (.tick now sends)).isSome := by
  obtain ⟨s₀, log₀, hinit, hlog₀, hruns⟩ :=
    maps_in_order (T := watchTwo) (by decide) 9 0
  exact ⟨s₀, log₀, hinit, hlog₀, (hruns [] s₀ .refl).2.2.2.2.1⟩

end Powerpack
end Eaf
