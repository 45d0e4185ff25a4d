import GokuStudio.Nginx.Http.LimitConn
import Mathlib.Data.List.MinMax

/-!
# The counts are exact

A request holds a node as long as there is a count for it. Every count has a record in the
pool of its request, so it is given back when the request ends. The exception is a count
whose record could not be made: then nothing gives it back.
-/

namespace GokuStudio.Nginx.LimitConn

open Lib List
open Function (update update_of_ne update_self)

/-! ## §1 A zone -/

/-- The nodes of a zone are those that are held, and each has its number of holders. -/
structure ZoneInv (bound : Nat) (zone : Zone) (holders : Item → Nat) : Prop extends Keyed zone.tree where
  conn : ∀ item ∈ zone.tree.inorder, (zone.conn item.addr).toNat = holders item ∧ 0 < holders item ∧ holders item ≤ bound
  free : ∀ item ∉ zone.tree.inorder, holders item = 0

section Zone

variable {ops : ColorTree.Ops Item} {bound limit : Nat} {zone zone' : Zone} {holders : Item → Nat} {data : Bytes}
  {alloc : Option Nat} {node : Item}

section
variable (h : ZoneInv bound zone holders)
include h

/-- Nothing changes but one node. -/
theorem ZoneInv.change {holders' : Item → Nat} (hkeyed : Keyed zone'.tree)
    (hmem : ∀ item ≠ node, item ∈ zone'.tree.inorder ↔ item ∈ zone.tree.inorder)
    (hconn : ∀ item ≠ node, item ∈ zone.tree.inorder → zone'.conn item.addr = zone.conn item.addr)
    (hholders : ∀ item ≠ node, holders' item = holders item)
    (hin : node ∈ zone'.tree.inorder →
      (zone'.conn node.addr).toNat = holders' node ∧ 0 < holders' node ∧ holders' node ≤ bound)
    (hout : node ∉ zone'.tree.inorder → holders' node = 0) : ZoneInv bound zone' holders' := by
  refine ⟨hkeyed, fun item hitem => ?_, fun item hitem => ?_⟩
  · by_cases heq : item = node
    · subst heq
      exact hin hitem
    rw [hmem item heq] at hitem
    rw [hconn item heq hitem, hholders item heq]
    exact h.conn item hitem
  · by_cases heq : item = node
    · subst heq
      exact hout hitem
    rw [hmem item heq] at hitem
    rw [hholders item heq]
    exact h.free item hitem

theorem ZoneInv.count_new {addr : Nat} (hbound : 1 ≤ bound)
    (hlength : data.length ≤ 255) (haddr : addr ∉ zone.addrs) (habsent : ∀ item ∈ zone.tree.inorder, item.data ≠ data)
    (hnode : node = ⟨addr, crc32Short data, data⟩) :
    ZoneInv bound ⟨ops.insert (goesLeft node) node zone.tree, update zone.conn addr 1⟩
      (update holders node (holders node + 1)) := by
  have hzero := h.free node fun hin => habsent node hin (hnode ▸ rfl)
  have hkeyed : Keyed (ops.insert (goesLeft node) node zone.tree) := hnode ▸ h.insert ops haddr hlength habsent
  refine h.change hkeyed (fun item hne => ops.mem_insert.trans (or_iff_right hne))
    (fun item _ hitem => update_of_ne (fun heq : item.addr = addr => haddr (heq ▸ mem_map_of_mem hitem)) ..)
    (fun item hne => update_of_ne hne ..) (fun _ => ?_) fun hnot => absurd (ops.mem_insert.mpr (.inl rfl)) hnot
  show (update zone.conn addr 1 node.addr).toNat = _ ∧ _
  rw [update_self, hzero, hnode, update_self]
  exact ⟨rfl, Nat.one_pos, hbound⟩

theorem ZoneInv.count_old (hmax : limit ≤ 65535) (hbound : limit ≤ bound)
    (hnode : node ∈ zone.tree.inorder) (hlt : (zone.conn node.addr).toNat < limit) :
    ZoneInv bound { zone with conn := update zone.conn node.addr (zone.conn node.addr + 1) }
      (update holders node (holders node + 1)) := by
  obtain ⟨hconn, hpos, -⟩ := h.conn node hnode
  have hsucc : (zone.conn node.addr + 1).toNat = holders node + 1 := by bv_omega
  refine h.change h.toKeyed (fun _ _ => Iff.rfl)
    (fun item hne hitem => update_of_ne (fun haddr => hne (h.addr_inj hitem hnode haddr)) ..)
    (fun item hne => update_of_ne hne ..) (fun _ => ?_) fun hnot => absurd hnode hnot
  show (update zone.conn node.addr _ node.addr).toNat = _ ∧ _
  rw [update_self, update_self]
  exact ⟨hsucc, Nat.succ_pos _, by omega⟩

/-- A count is taken for a node whose key is the value. -/
theorem ZoneInv.count (hpos : 1 ≤ limit) (hmax : limit ≤ 65535)
    (hbound : limit ≤ bound) (hlength : data.length ≤ 255) (halloc : ∀ addr, alloc = some addr → addr ∉ zone.addrs)
    (hcount : count ops limit zone data alloc = (some node, zone')) :
    node.data = data ∧ ZoneInv bound zone' (update holders node (holders node + 1)) := by
  cases hlookup : lookup (crc32Short data) data zone.tree with simp only [LimitConn.count, hlookup] at hcount
  | none =>
    cases alloc with
    | none => cases hcount
    | some addr =>
      cases hcount
      have habsent := h.lookup_none.mp hlookup
      exact ⟨rfl, h.count_new (hpos.trans hbound) hlength (halloc addr rfl) habsent rfl⟩
  | some found =>
    obtain ⟨hfound, hdata⟩ := h.lookup_some.mp hlookup
    by_cases hge : (zone.conn found.addr).toNat ≥ limit
    · rw [if_pos hge] at hcount
      cases hcount
    rw [if_neg hge] at hcount
    cases hcount
    exact ⟨hdata, h.count_old hmax hbound hfound (not_le.mp hge)⟩

end

theorem ZoneInv.uncount (h : ZoneInv bound zone (update holders node (holders node + 1))) :
    ZoneInv bound (uncount ops zone node) holders := by
  have hnode : node ∈ zone.tree.inorder := by
    by_contra hnot
    have hzero := h.free node hnot
    rw [update_self] at hzero
    cases hzero
  obtain ⟨hconn, -, hle⟩ := h.conn node hnode
  rw [update_self] at hconn hle
  have hpred : (zone.conn node.addr - 1).toNat = holders node := by bv_omega
  have hothers : ∀ item ≠ node, item ∈ zone.tree.inorder → (LimitConn.uncount ops zone node).conn item.addr =
      zone.conn item.addr := fun item hne hitem => update_of_ne (fun haddr => hne (h.addr_inj hitem hnode haddr)) ..
  have hholders : ∀ item ≠ node, holders item = update holders node (holders node + 1) item := fun item hne =>
    (update_of_ne hne ..).symm
  by_cases hzero : zone.conn node.addr - 1 = 0
  · -- the last holder: the node is deleted
    have htree : (LimitConn.uncount ops zone node).tree = ops.delete node zone.tree := if_pos hzero
    have hperm := ops.perm_delete hnode
    have hgone : node ∉ (ops.delete node zone.tree).inorder := fun hin =>
      (nodup_cons.mp ((hperm.map Item.addr).nodup_iff.mpr h.addrs)).1 (mem_map_of_mem hin)
    refine h.change (htree ▸ h.delete ops hnode) (fun item hne => ?_) hothers hholders
      (fun hin => absurd (htree ▸ hin) hgone) fun _ => ?_
    · rw [htree, ← hperm.mem_iff, mem_cons, or_iff_right hne]
    · rw [← hpred, hzero]
      rfl
  · have htree : (LimitConn.uncount ops zone node).tree = zone.tree := if_neg hzero
    refine h.change (htree ▸ h.toKeyed) (fun _ _ => by rw [htree]) hothers hholders (fun _ => ⟨?_, ?_, by omega⟩)
      fun hout => absurd (htree ▸ hnode) hout
    · show (update zone.conn node.addr _ node.addr).toNat = _
      rw [update_self, hpred]
    · refine Nat.pos_of_ne_zero fun hnone => hzero (BitVec.eq_of_toNat_eq ?_)
      rw [hpred, hnone]
      rfl

end Zone

/-! ## §2 A request -/

/-- The count that has no record yet. -/
def Phase.pending : Phase → List Hold
  | .counted hold _ => [hold]
  | _ => []

/-- The limits that are left. -/
def Phase.todo : Phase → List Limit
  | .checking limits => limits
  | .counted _ limits => limits
  | _ => []

/-- The counts that the records of a pool give back. -/
def recorded (cleanup : List Cleanup) : List Hold := cleanup.filterMap fun
    | .conn hold => some hold
    | .other => none

/-- A limit that the configuration allows. -/
structure Limit.Fits (conf : List (List Limit)) (limit : Limit) : Prop where
  pos : 1 ≤ limit.conn
  word : limit.conn ≤ 65535
  largest : limit.conn ≤ largest conf limit.zone

/-- What is held is in the records, and is of zones that are not looked at again. -/
structure Request.Good (conf : List (List Limit)) (r : Request) : Prop where
  held : r.held = r.phase.pending ++ recorded r.cleanup
  zones : (r.held.map (·.1) ++ r.phase.todo.map (·.zone)).Nodup
  unset : r.limitConnSet = false → r.held = []
  limits : ∀ limit ∈ r.phase.todo, limit.Fits conf
  ended : r.phase = .ended → r.cleanup = []

/-- What an action does to the counts. -/
inductive Effect (ops : ColorTree.Ops Item) (conf : List (List Limit)) (zones : Nat → Zone) (r r' : Request) :
    (Nat → Zone) → Prop
  | none (hheld : r'.held = r.held) : Effect ops conf zones r r' zones
  | take {limit : Limit} {data : Bytes} {alloc : Option Nat} {node : Item} {zone' : Zone} (hfits : limit.Fits conf)
      (hlength : data.length ≤ 255) (halloc : ∀ addr, alloc = some addr → addr ∉ (zones limit.zone).addrs)
      (hcount : count ops limit.conn (zones limit.zone) data alloc = (some node, zone'))
      (hheld : r'.held = (limit.zone, node) :: r.held) (hnew : (limit.zone, node) ∉ r.held) :
      Effect ops conf zones r r' (update zones limit.zone zone')
  | give {hold : Hold} (hheld : r.held = hold :: r'.held) (hnew : hold ∉ r'.held) :
      Effect ops conf zones r r' (update zones hold.1 (uncount ops (zones hold.1) hold.2))

section Request

variable {ops : ColorTree.Ops Item} {conf : List (List Limit)} {zones zones' : Nat → Zone} {r r' : Request}
  {limits : List Limit}

theorem configured_iff (h : Configured limits) :
    (limits.map (·.zone)).Nodup ∧ ∀ limit ∈ limits, 1 ≤ limit.conn ∧ limit.conn ≤ 65535 := by
  induction h with
  | none => exact ⟨nodup_nil, nofun⟩
  | @add limits limits' zone n _ hadd ih =>
    rw [limitConn] at hadd
    split_ifs at hadd with hnew hpos hmax
    cases hadd
    have hzone : zone ∉ limits.map (·.zone) := by
      intro hmem
      obtain ⟨limit, hlimit, rfl⟩ := mem_map.mp hmem
      exact hnew (any_eq_true.mpr ⟨limit, hlimit, decide_eq_true rfl⟩)
    refine ⟨?_, fun limit hlimit => ?_⟩
    · rw [map_append]
      exact nodup_append_comm.mp (nodup_cons.mpr ⟨hzone, ih.1⟩)
    · rcases mem_append.mp hlimit with hlimit | hlimit
      · exact ih.2 limit hlimit
      rw [mem_singleton.mp hlimit]
      show 1 ≤ n.toNat ∧ n.toNat ≤ 65535
      omega

theorem fits (hconf : ∀ limits ∈ conf, Configured limits) (hlimits : limits ∈ conf) :
    ∀ limit ∈ limits, limit.Fits conf := by
  intro limit hlimit
  obtain ⟨hpos, hmax⟩ := (configured_iff (hconf limits hlimits)).2 limit hlimit
  have hmem : limit ∈ conf.flatten.filter (·.zone = limit.zone) :=
    mem_filter.mpr ⟨mem_flatten.mpr ⟨limits, hlimits, hlimit⟩, decide_eq_true rfl⟩
  exact ⟨hpos, hmax, le_max_of_le' 0 (mem_map_of_mem (f := Limit.conn) hmem) le_rfl⟩

theorem good_new : Request.new.Good conf := ⟨rfl, nodup_nil, fun _ => rfl, nofun, nofun⟩

variable (h : r.Good conf)
include h

/-- A record is run. -/
theorem Request.Good.runCleanup {hold : Hold} {rest : List Cleanup} (hpending : r.phase.pending = [])
    (htodo : r.phase.todo = []) (hphase : r.phase ≠ .ended) (hcleanup : r.cleanup = .conn hold :: rest) :
    (runCleanup ops zones r hold rest).2.Good conf ∧
      Effect ops conf zones r (runCleanup ops zones r hold rest).2 (runCleanup ops zones r hold rest).1 := by
  have hheld : r.held = hold :: recorded rest := by rw [h.held, hpending, hcleanup]; rfl
  have herase : (LimitConn.runCleanup ops zones r hold rest).2.held = recorded rest := by
    show r.held.erase hold = _
    rw [hheld, erase_cons_head]
  have hzones := h.zones
  rw [htodo, hheld] at hzones
  have hnodup := nodup_cons.mp (nodup_append.mp hzones).1
  refine ⟨⟨?_, ?_, fun hset => ?_, h.limits, fun hended => absurd hended hphase⟩, .give ?_ fun hmem => ?_⟩
  · rw [herase]
    show _ = r.phase.pending ++ _
    rw [hpending]
    rfl
  · rw [herase]
    show (_ ++ r.phase.todo.map _).Nodup
    rw [htodo, map_nil, append_nil]
    exact hnodup.2
  · have hnil := h.unset hset
    rw [hheld] at hnil
    cases hnil
  · rw [herase, hheld]
  · rw [herase] at hmem
    exact hnodup.1 (mem_map_of_mem hmem)

/-- Nothing is done to the counts, and perhaps some limits are passed by. -/
theorem Request.Good.move {phase : Phase} {cleanup : List Cleanup} {rejected : Bool}
    (hheld : phase.pending ++ recorded cleanup = r.phase.pending ++ recorded r.cleanup)
    (htodo : phase.todo.Sublist r.phase.todo) (hended : phase = .ended → cleanup = []) :
    { r with phase := phase, cleanup := cleanup, rejected := rejected }.Good conf ∧
      Effect ops conf zones r { r with phase := phase, cleanup := cleanup, rejected := rejected } zones := by
  refine ⟨⟨h.held.trans hheld.symm, ?_, h.unset, fun limit hlimit => h.limits limit (htodo.subset hlimit), hended⟩,
    .none rfl⟩
  exact h.zones.sublist ((htodo.map _).append_left _)

theorem Request.Good.checkLimit {limit : Limit} {rest : List Limit} {data : Bytes} {alloc : Option Nat}
    (hphase : r.phase = .checking (limit :: rest)) (hlength : data.length ≤ 255)
    (halloc : ∀ addr, alloc = some addr → addr ∉ (zones limit.zone).addrs)
    (hcheck : checkLimit ops zones r limit rest data alloc = (zones', r')) :
    r'.Good conf ∧ Effect ops conf zones r r' zones' := by
  have hheld := h.held
  have hzones := h.zones
  have hlimits := h.limits
  rw [hphase] at hheld hzones hlimits
  rw [LimitConn.checkLimit] at hcheck
  cases hcount : count ops limit.conn (zones limit.zone) data alloc with
  | mk node zone' =>
    rw [hcount] at hcheck
    cases node with
    | none =>
      cases hcheck
      refine ⟨⟨hheld, ?_, nofun, nofun, nofun⟩, .none rfl⟩
      exact hzones.sublist ((nil_sublist _).append_left _)
    | some node =>
      cases hcheck
      have hzones' := nodup_middle.mp hzones
      have hnew : limit.zone ∉ r.held.map (·.1) := fun hmem =>
        (nodup_cons.mp hzones').1 (mem_append_left _ hmem)
      refine ⟨⟨?_, hzones', nofun, (forall_mem_cons.mp hlimits).2, nofun⟩, ?_⟩
      · exact congrArg ((limit.zone, node) :: ·) hheld
      · refine .take (hlimits limit mem_cons_self) hlength halloc hcount rfl fun hmem => hnew ?_
        exact mem_map_of_mem hmem

/-- Each action of a request, except for a record that is not made. -/
theorem Request.Good.act {a : Action} (hconf : ∀ limits ∈ conf, Configured limits)
    (hallowed : Allowed conf zones r a) (hact : act ops zones r a = some (zones', r')) (hrecord : a ≠ .record false) :
    r'.Good conf ∧ Effect ops conf zones r r' zones' := by
  cases a with rw [LimitConn.act] at hact
  | call limits =>
    split at hact
    case h_2 => cases hact
    case h_1 hphase =>
      cases hset : r.limitConnSet with
      | true =>
        rw [hset, if_pos rfl] at hact
        cases hact
        exact ⟨h, .none rfl⟩
      | false =>
        rw [hset, if_neg Bool.false_ne_true] at hact
        cases hact
        have hnil := h.unset hset
        have hheld := h.held
        rw [hphase] at hheld
        refine ⟨⟨hheld, ?_, fun _ => hnil, fits hconf hallowed, nofun⟩, .none rfl⟩
        rw [hnil]
        exact (configured_iff (hconf limits hallowed)).1
  | limit value alloc =>
    split at hact
    case h_2 => cases hact
    case h_1 limit rest hphase =>
      have hskip : { r with phase := .checking rest }.Good conf ∧ Effect ops conf zones r { r with phase := .checking rest } zones :=
        h.move (by rw [hphase]; rfl) (hphase ▸ sublist_cons_self limit rest) nofun
      cases value with
      | none =>
        cases hact
        exact hskip
      | some data =>
        by_cases hlength : data.length = 0 ∨ data.length > 255
        · simp only [if_pos hlength] at hact
          cases hact
          exact hskip
        simp only [if_neg hlength] at hact
        refine h.checkLimit hphase (by omega) (fun addr haddr => ?_) (Option.some.inj hact)
        subst haddr
        exact hallowed limit rest hphase
  | record ok =>
    split at hact
    case h_2 => cases hact
    case h_1 hold rest hphase =>
      cases ok with
      | false => exact absurd rfl hrecord
      | true =>
        cases hact
        exact h.move (by rw [hphase]; rfl) (by rw [hphase]; exact .refl _) nofun
  | other =>
    split at hact <;> cases hact
    case h_1.refl limits hphase =>
      exact h.move rfl (.refl _) (by rw [hphase]; nofun)
  | cleanupAll =>
    split at hact <;> cases hact
    case h_1.refl hold rest hphase hcleanup =>
      exact h.runCleanup (by rw [hphase]; rfl) (by rw [hphase]; rfl) (by rw [hphase]; nofun) hcleanup
    case h_2.refl hphase _ =>
      exact h.move (by rw [hphase]; rfl) (nil_sublist _) nofun
  | finish =>
    split at hact <;> cases hact
    case h_1.refl hphase =>
      exact h.move (by rw [hphase]; rfl) (nil_sublist _) nofun
  | destroy =>
    split at hact <;> cases hact
    case h_1.refl hold rest hphase hcleanup =>
      exact h.runCleanup (by rw [hphase]; rfl) (by rw [hphase]; rfl) (by rw [hphase]; nofun) hcleanup
    case h_2.refl rest hphase hcleanup =>
      exact h.move (by rw [hcleanup]; rfl) (.refl _) (by rw [hphase]; nofun)
    case h_3.refl hphase hcleanup =>
      exact h.move (by rw [hphase]; rfl) (nil_sublist _) fun _ => hcleanup

end Request

/-! ## §3 Every run -/

def holders (requests : List Request) (hold : Hold) : Nat := requests.countP (hold ∈ ·.held)

structure Inv (conf : List (List Limit)) (s : State) : Prop where
  zones : ∀ zone, ZoneInv (largest conf zone) (s.zones zone) fun node => holders s.requests (zone, node)
  requests : ∀ r ∈ s.requests, r.Good conf

section Runs

variable {ops : ColorTree.Ops Item} {conf : List (List Limit)} {s : State} {zones' : Nat → Zone}
  {xs ys : List Request} {r r' : Request}

theorem holders_same (hheld : r'.held = r.held) : holders (xs ++ r' :: ys) = holders (xs ++ r :: ys) := by
  funext hold
  rw [holders, holders, countP_append, countP_append, countP_cons, countP_cons, hheld]

theorem holders_take {hold : Hold} (hheld : r'.held = hold :: r.held) (hnew : hold ∉ r.held) :
    holders (xs ++ r' :: ys) = update (holders (xs ++ r :: ys)) hold (holders (xs ++ r :: ys) hold + 1) := by
  funext x
  by_cases hx : x = hold
  · rw [hx, update_self, holders, holders, countP_append, countP_append, countP_cons,
      countP_cons, hheld, if_pos (by simp), if_neg (by simpa using hnew)]
    rfl
  · have hmem : (x ∈ r'.held) = (x ∈ r.held) := by rw [hheld, mem_cons, or_iff_right hx]
    rw [update_of_ne hx, holders, holders, countP_append, countP_append, countP_cons, countP_cons]
    simp only [hmem]

/-- The holders of the nodes of one zone, when a count is taken in it. -/
theorem update_zone (f : Hold → Nat) (zone : Nat) (node : Item) (n : Nat) :
    (fun x => update f (zone, node) n (zone, x)) = update (fun x => f (zone, x)) node n := by
  funext x
  by_cases hx : x = node
  · rw [hx, update_self, update_self]
  · rw [update_of_ne hx, update_of_ne fun heq => hx (Prod.mk.inj heq).2]

theorem update_other (f : Hold → Nat) {zone other : Nat} (hne : other ≠ zone) (node : Item) (n : Nat) :
    (fun x => update f (zone, node) n (other, x)) = fun x => f (other, x) := by
  funext x
  rw [update_of_ne fun heq => hne (Prod.mk.inj heq).1]

theorem Inv.effect (h : Inv conf s) (hs : s.requests = xs ++ r :: ys) (heffect : Effect ops conf s.zones r r' zones')
    (zone : Nat) :
    ZoneInv (largest conf zone) (zones' zone) fun node => holders (xs ++ r' :: ys) (zone, node) := by
  have hzone := h.zones
  rw [hs] at hzone
  cases heffect with
  | none hheld =>
    rw [holders_same hheld]
    exact hzone zone
  | @take limit data alloc node zone' hfits hlength halloc hcount hheld hnew =>
    rw [holders_take hheld hnew]
    by_cases heq : zone = limit.zone
    · rw [heq, update_self, update_zone]
      exact ((hzone limit.zone).count hfits.pos hfits.word hfits.largest hlength halloc hcount).2
    · rw [update_of_ne heq, update_other _ heq]
      exact hzone zone
  | @give hold hheld hnew =>
    rw [holders_take hheld hnew] at hzone
    by_cases heq : zone = hold.1
    · have hold' := hzone hold.1
      rw [update_zone] at hold'
      rw [heq, update_self]
      exact hold'.uncount
    have hother := hzone zone
    rw [update_other _ heq] at hother
    rw [update_of_ne heq]
    exact hother

theorem run_inv (hconf : ∀ limits ∈ conf, Configured limits) (h : Run ops conf (· ≠ .record false) s) : Inv conf s := by
  induction h with
  | init => exact ⟨fun _ => ⟨keyed_leaf, nofun, fun _ _ => rfl⟩, nofun⟩
  | @start s _ ih =>
    refine ⟨fun zone => ?_, fun r hr => ?_⟩
    · exact ih.zones zone
    · rcases mem_cons.mp hr with rfl | hr
      · exact good_new
      · exact ih.requests r hr
  | @act s _ xs ys r r' zones' a hs hallowed hact hP ih =>
    have hgood : r.Good conf := ih.requests r (hs ▸ mem_append_right _ mem_cons_self)
    obtain ⟨hgood', heffect⟩ := hgood.act hconf hallowed hact hP
    refine ⟨ih.effect hs heffect, fun x hx => ?_⟩
    rcases mem_append.mp hx with hx | hx
    · exact ih.requests x (hs ▸ mem_append_left _ hx)
    rcases mem_cons.mp hx with rfl | hx
    · exact hgood'
    · exact ih.requests x (hs ▸ mem_append_right _ (mem_cons_of_mem _ hx))

/-- A request that is over holds nothing. -/
theorem Request.Good.released (h : r.Good conf) (hended : r.phase = .ended) : r.held = [] := by
  rw [h.held, hended, h.ended hended]
  rfl

/-- The number of requests that are not over and hold a node. -/
def liveHolders (s : State) (hold : Hold) : Nat := s.requests.countP fun r => r.phase ≠ .ended ∧ hold ∈ r.held

theorem Inv.liveHolders (h : Inv conf s) (hold : Hold) : liveHolders s hold = holders s.requests hold := by
  refine countP_congr fun r hr => ?_
  simp only [decide_eq_true_eq, and_iff_right_iff_imp]
  intro hheld hended
  rw [(h.requests r hr).released hended] at hheld
  cases hheld

end Runs
end GokuStudio.Nginx.LimitConn
