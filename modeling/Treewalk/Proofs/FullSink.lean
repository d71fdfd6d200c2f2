import Treewalk.Proofs.Fuel
import Treewalk.Proofs.Sinks

/-!
# A full sink

A sink with a limit changes nothing about a run whose output fits. Otherwise the run is cut at
the first `print` that does not fit: the sink has as much as it takes, and the run ends there,
so the store is the one that this `print` was executed in.

Both are said of watched actions (`Eval.Cuts`), so that the `print` where a run is cut is one
that the run without a limit comes to.
-/

namespace Treewalk

namespace Sink

/-- The sink with a limit. -/
def limited (s : Sink) (n : Nat) : Sink :=
  { s with limit := some n }

/-- The sink with a limit that its output has come to. -/
def filled (s : Sink) (n : Nat) : Sink :=
  ⟨s.written.extract 0 n, some n, s.flushFails⟩

/-- A text that fits is written whole. -/
theorem write_limited_of_le {s : Sink} {n : Nat} {text : String}
    (h : s.written.size + text.toUTF8.size ≤ n) :
    (s.limited n).write text = (.ok (), (s.append text.toUTF8).limited n) := by
  have hroom : (s.limited n).room text.toUTF8.size = text.toUTF8.size := by
    show min text.toUTF8.size (n - s.written.size) = _
    omega
  unfold write
  rw [if_pos (Nat.le_of_eq hroom.symm)]
  rfl

/-- Of a text that does not fit, what there is room for is written. -/
theorem write_limited_of_lt {s : Sink} {n : Nat} {text : String} (hs : s.written.size ≤ n)
    (h : n < s.written.size + text.toUTF8.size) :
    (s.limited n).write text = (.error .sinkFull, (s.append text.toUTF8).filled n) := by
  have hroom : (s.limited n).room text.toUTF8.size = n - s.written.size := by
    show min text.toUTF8.size (n - s.written.size) = _
    omega
  have hwritten : (s.written ++ text.toUTF8).extract 0 n =
      s.written ++ text.toUTF8.extract 0 (n - s.written.size) := by
    have hwhole : s.written.extract 0 n = s.written := by
      rw [← Nat.max_eq_left hs, ByteArray.extract_zero_max_size]
    rw [ByteArray.extract_append, hwhole, Nat.zero_sub]
  unfold write filled append
  dsimp only
  rw [hroom, if_neg (by omega), hwritten]
  rfl

/-- What is written later changes nothing about what came to the limit. -/
theorem filled_append {s : Sink} {n : Nat} (h : n ≤ s.written.size) (bytes : ByteArray) :
    (s.append bytes).filled n = s.filled n := by
  have hextract : (s.written ++ bytes).extract 0 n = s.written.extract 0 n := by
    rw [ByteArray.extract_append, Nat.zero_sub, Nat.sub_eq_zero_of_le h, ByteArray.extract_same,
      ByteArray.append_empty]
  unfold filled append
  rw [hextract]

end Sink

namespace Machine

def limited (n : Nat) (m : Machine) : Machine :=
  { m with out := m.out.limited n }

/-- The machine `m'` is in the place of `m`, and has written more. -/
structure Onward (m m' : Machine) : Prop where
  scope : m'.scope = m.scope
  depth : m'.depth = m.depth
  out : ∃ bytes, m'.out = m.out.append bytes

theorem Onward.trans {m m' m'' : Machine} (h : m.Onward m') (h' : m'.Onward m'') :
    m.Onward m'' := by
  obtain ⟨bytes, hout⟩ := h.out
  obtain ⟨bytes', hout'⟩ := h'.out
  refine ⟨h'.scope.trans h.scope, h'.depth.trans h.depth, bytes ++ bytes', ?_⟩
  rw [hout', hout]
  unfold Sink.append
  rw [ByteArray.append_assoc]

theorem Onward.limit {m m' : Machine} (h : m.Onward m') : m'.out.limit = m.out.limit := by
  obtain ⟨bytes, hout⟩ := h.out
  rw [hout]
  rfl

theorem Onward.size_le {m m' : Machine} (h : m.Onward m') :
    m.out.written.size ≤ m'.out.written.size := by
  obtain ⟨bytes, hout⟩ := h.out
  rw [hout]
  show _ ≤ (m.out.written ++ bytes).size
  rw [ByteArray.size_append]
  omega

theorem Onward.filled {m m' : Machine} (h : m.Onward m') {n : Nat} (hn : n ≤ m.out.written.size) :
    m'.out.filled n = m.out.filled n := by
  obtain ⟨bytes, hout⟩ := h.out
  rw [hout, Sink.filled_append hn]

/-- The machine that a run from `m` is cut in, if the sink is full at `last`. -/
def cutOff (m last : Machine) (out : Sink) : Machine :=
  { last with scope := m.scope, depth := m.depth, out }

theorem Onward.cutOff {m m' : Machine} (h : m.Onward m') (last : Machine) (out : Sink) :
    m'.cutOff last out = m.cutOff last out := by
  unfold Machine.cutOff
  rw [h.scope, h.depth]

end Machine

/-- Executed in `now`, `print e` has its value in `last`, and the line is the first not to fit
in `n` bytes. -/
def Expr.Fills (n : Nat) (e : Expr) (now last : Machine) : Prop :=
  ∃ v, e.Evaluates now (.ok v last) ∧ last.out.written.size ≤ n ∧
    n < last.out.written.size + (last.store.text v ++ "\n").toUTF8.size

namespace Eval

variable {α β : Type} {n : Nat}

/-- What a limit of `n` bytes does to an action from `m`: nothing, or it ends the action at a
`print` that the action comes to. -/
inductive CutAt (n : Nat) (x : Watch → Eval α) (m : Machine) : Prop
  | fits : (after (x silent m)).out.written.size ≤ n →
    x silent (m.limited n) = mapMachine (Machine.limited n) (x silent m) → CutAt n x m
  | full {e : Expr} {now last : Machine} : e.Fills n now last →
    (∀ (w : Watch) (stop : Stop), w.Within (fun node m' => node = .stmt (.print e) ∧ m' = now) →
      w (.stmt (.print e)) now = some stop → ∃ m', x w m = .error stop m') →
    n < (after (x silent m)).out.written.size →
    x silent (m.limited n) = .error (.fault (.channel .sinkFull))
      (m.cutOff last ((after (x silent m)).out.filled n)) → CutAt n x m

structure Cuts (n : Nat) (x : Watch → Eval α) : Prop where
  heeds : Heeds x
  onward : ∀ m : Machine, m.Onward (after (x silent m))
  cut : ∀ m : Machine, m.out.limit = none → m.out.written.size ≤ n → CutAt n x m

/-! ## Actions -/

theorem Quiet.cuts {x : Eval α} (h : Quiet x) : Cuts n fun _ => x := by
  refine ⟨heeds_const x, fun m => ?_, fun m _ hsize => .fits ?_ ?_⟩
  · refine ⟨(h.place m).1, (h.place m).2, .empty, ?_⟩
    rw [h.out_eq]
    unfold Sink.append
    rw [ByteArray.append_empty]
  · rw [h.out_eq]
    exact hsize
  · have hout := h.out_eq m
    show x { m with out := m.out.limited n } = _
    rw [h.out]
    cases hr : x m with
    | ok a m' =>
      rw [hr] at hout
      rw [← show m'.out = m.out from hout]
      rfl
    | error e m' =>
      rw [hr] at hout
      rw [← show m'.out = m.out from hout]
      rfl

theorem onward_bind {x : Eval α} {f : α → Eval β} {m : Machine}
    (hf : ∀ a (m' : Machine), m'.Onward (after (f a m'))) :
    (after (x m)).Onward (after ((x >>= f) m)) := by
  cases hr : x m with
  | ok a m' =>
    rw [bind_of_ok hr]
    exact hf a m'
  | error e m' =>
    rw [bind_of_error hr]
    exact ⟨rfl, rfl, .empty, by unfold Sink.append; rw [ByteArray.append_empty]; rfl⟩

/-- An action that is cut is cut whatever would come after it. -/
theorem CutAt.bind {x : Watch → Eval α} {f : Watch → α → Eval β} {m : Machine} (hx : CutAt n x m)
    (hheeds : Heeds x) (honward : m.Onward (after (x silent m)))
    (hlater : ∀ a (m' : Machine), m'.Onward (after (f silent a m')))
    (hf : ∀ a m', x silent m = .ok a m' → m'.out.written.size ≤ n → CutAt n (fun w => f w a) m') :
    CutAt n (fun w => x w >>= f w) m := by
  have hnext : (after (x silent m)).Onward (after ((x silent >>= f silent) m)) := onward_bind hlater
  cases hx with
  | full hfills hstops hlt hrun =>
    refine .full hfills (fun w stop hw hstop => ?_) (Nat.lt_of_lt_of_le hlt hnext.size_le) ?_
    · obtain ⟨m', h⟩ := hstops w stop hw hstop
      exact ⟨m', bind_of_error h _⟩
    · rw [bind_of_error hrun, hnext.filled (Nat.le_of_lt hlt)]
  | fits hle hrun =>
    cases hr : x silent m with
    | error e m' =>
      rw [hr] at hle hrun
      refine .fits ?_ ?_
      · rw [bind_of_error hr]
        exact hle
      · rw [bind_of_error hrun, bind_of_error hr]
        rfl
    | ok a m' =>
      rw [hr] at hle hrun honward
      cases hf a m' hr hle with
      | fits hle' hrun' =>
        refine .fits ?_ ?_
        · rw [bind_of_ok hr]
          exact hle'
        · rw [bind_of_ok hrun, bind_of_ok hr]
          exact hrun'
      | @full e now last hfills hstops hlt hrun' =>
        refine .full hfills (fun w stop hw hstop => ?_) ?_ ?_
        · -- the watch may stop the first action already, but with the same
          cases hheeds _ m with
          | unchanged h =>
            rw [bind_of_ok ((h w hw).trans hr)]
            exact hstops w stop hw hstop
          | stopped hD h =>
            obtain ⟨rfl, rfl⟩ := hD
            exact ⟨_, bind_of_error (h w stop hw hstop) _⟩
        · rw [bind_of_ok hr]
          exact hlt
        · rw [bind_of_ok hrun, bind_of_ok hr]
          exact hrun'.trans (congrArg _ (honward.cutOff last _))

theorem Cuts.bind {x : Watch → Eval α} {f : Watch → α → Eval β} (hx : Cuts n x)
    (hf : ∀ a, Cuts n fun w => f w a) : Cuts n fun w => x w >>= f w := by
  refine ⟨hx.heeds.bind fun a => (hf a).heeds, fun m => ?_, fun m hlimit hsize => ?_⟩
  · exact (hx.onward m).trans (onward_bind fun a => (hf a).onward)
  · refine (hx.cut m hlimit hsize).bind hx.heeds (hx.onward m) (fun a => (hf a).onward)
      fun a m' hr hle => (hf a).cut m' ?_ hle
    have honward := hx.onward m
    rw [hr] at honward
    exact honward.limit.trans hlimit

/-- An action between two changes of the place. -/
theorem CutAt.between {x y : Watch → Eval α} {m m₁ : Machine} (hx : CutAt n x m₁)
    (back : Machine → Machine) (hout : ∀ m' : Machine, (back m').out = m'.out)
    (hlimited : ∀ m' : Machine, back (m'.limited n) = (back m').limited n)
    (hback : ∀ last out, back (m₁.cutOff last out) = m.cutOff last out)
    (hy : ∀ w, y w m = mapMachine back (x w m₁))
    (hy' : ∀ w, y w (m.limited n) = mapMachine back (x w (m₁.limited n))) : CutAt n y m := by
  have hafter : (after (y silent m)).out = (after (x silent m₁)).out := by
    rw [hy]
    cases x silent m₁ <;> exact hout _
  cases hx with
  | fits hle hrun =>
    refine .fits (hafter ▸ hle) ?_
    rw [hy', hy, hrun]
    cases x silent m₁ <;> simp only [mapMachine, hlimited]
  | full hfills hstops hlt hrun =>
    refine .full hfills (fun w stop hw hstop => ?_) (hafter ▸ hlt) ?_
    · obtain ⟨m', h⟩ := hstops w stop hw hstop
      exact ⟨back m', by rw [hy, h]; rfl⟩
    · rw [hy', hrun, hafter]
      simp only [mapMachine, hback]

theorem Cuts.within {x : Watch → Eval α} (hx : Cuts n x) (scope : ScopeId) :
    Cuts n fun w => within scope (x w) := by
  refine ⟨hx.heeds.within scope, fun m => ?_, fun m hlimit hsize => ?_⟩
  · have h := hx.onward { m with scope }
    rw [within_eq]
    cases hr : x silent { m with scope } <;> rw [hr] at h <;> exact ⟨rfl, h.depth, h.out⟩
  · exact (hx.cut { m with scope } hlimit hsize).between (fun m' => { m' with scope := m.scope })
      (fun _ => rfl) (fun _ => rfl) (fun _ _ => rfl) (fun w => within_eq scope (x w) m)
      fun w => within_eq scope (x w) (m.limited n)

theorem Cuts.nested {x : Watch → Eval α} (hx : Cuts n x) (t : Token) :
    Cuts n fun w => nested t (x w) := by
  refine ⟨hx.heeds.nested t, fun m => ?_, fun m hlimit hsize => ?_⟩
  · by_cases hd : maxDepth ≤ m.depth
    · rw [nested_eq, if_pos hd]
      exact (Quiet.cuts (n := n) (quiet_fail t .stackOverflow : Quiet (fail t _ : Eval α))).onward m
    · have h := hx.onward { m with depth := m.depth + 1 }
      have hdepth : (after (x silent { m with depth := m.depth + 1 })).depth - 1 = m.depth := by
        rw [h.depth]
        rfl
      rw [nested_eq, if_neg hd]
      cases hr : x silent { m with depth := m.depth + 1 } <;> rw [hr] at h hdepth <;>
        exact ⟨h.scope, hdepth, h.out⟩
  · by_cases hd : maxDepth ≤ m.depth
    · have hfail : ∀ w (m' : Machine), maxDepth ≤ m'.depth →
          Eval.nested t (x w) m' = fail t .stackOverflow m' := fun w m' hd => by
        rw [nested_eq, if_pos hd]
      refine .fits ?_ ?_
      · rw [hfail silent m hd]
        exact hsize
      · rw [hfail silent m hd, hfail silent (m.limited n) hd]
        rfl
    · refine (hx.cut { m with depth := m.depth + 1 } hlimit hsize).between
        (fun m' => { m' with depth := m'.depth - 1 }) (fun _ => rfl) (fun _ => rfl)
        (fun _ _ => rfl) (fun w => ?_) fun w => ?_
      · rw [nested_eq, if_neg hd]
      · exact (nested_eq t (x w) (m.limited n)).trans (if_neg hd)

theorem cuts_congruence (n : Nat) : Congruence fun {α : Type} => @Cuts α n where
  const h := h.cuts
  bind := Cuts.bind
  within scope h := h.within scope
  nested t h := h.nested t

/-! ## Nodes -/

theorem CutAt.watched {x : Watch → Eval α} {m : Machine} (hx : CutAt n x m) (node : Node) :
    CutAt n (fun w => watched w node (x w)) m := by
  cases hx with
  | fits hle hrun => exact .fits hle hrun
  | @full e now last hfills hstops hlt hrun =>
    refine .full hfills (fun w stop hw hstop => ?_) hlt hrun
    cases hnode : w node m with
    | none =>
      rw [watched_of_none _ hnode]
      exact hstops w stop hw hstop
    | some stop' =>
      -- the watch stops here already, so this is the node
      obtain ⟨rfl, rfl⟩ := hw node m (by rw [hnode]; exact Option.some_ne_none _)
      exact ⟨m, by simp only [Eval.watched, hstop]⟩

theorem Cuts.watched {x : Watch → Eval α} (hx : Cuts n x) (node : Node) :
    Cuts n fun w => watched w node (x w) :=
  ⟨hx.heeds.watched node, hx.onward, fun m hlimit hsize => (hx.cut m hlimit hsize).watched node⟩

/-- Prints a value as a line. -/
def printValue (v : Value) : Eval Flow := do
  printLine (← inspect fun s => s.text v)
  pure .normal

theorem printValue_of_ok {v : Value} {m : Machine} {out : Sink}
    (h : m.out.write (m.store.text v ++ "\n") = (.ok (), out)) :
    printValue v m = .ok .normal { m with out } := by
  have hline : printLine (m.store.text v) m = .ok () { m with out } := by
    unfold printLine
    dsimp only
    rw [h]
  exact bind_of_ok hline _

theorem printValue_of_error {v : Value} {m : Machine} {out : Sink} {f : ChannelFault}
    (h : m.out.write (m.store.text v ++ "\n") = (.error f, out)) :
    printValue v m = .error (.fault (.channel f)) { m with out } := by
  have hline : printLine (m.store.text v) m = .error (.fault (.channel f)) { m with out } := by
    unfold printLine
    dsimp only
    rw [h]
  exact bind_of_error hline _

theorem onward_printValue (v : Value) (m : Machine) : m.Onward (after (printValue v m)) := by
  have hwrite : ∀ text, ∃ bytes, (m.out.write text).2 = m.out.append bytes := fun text => by
    unfold Sink.write
    dsimp only
    split
    · exact ⟨_, rfl⟩
    · exact ⟨_, rfl⟩
  obtain ⟨bytes, hbytes⟩ := hwrite (m.store.text v ++ "\n")
  cases hr : m.out.write (m.store.text v ++ "\n") with
  | mk result out =>
    rw [hr] at hbytes
    cases result with
    | ok =>
      rw [printValue_of_ok hr]
      exact ⟨rfl, rfl, bytes, hbytes⟩
    | error f =>
      rw [printValue_of_error hr]
      exact ⟨rfl, rfl, bytes, hbytes⟩

/-- Without a limit a line is always printed. -/
theorem printValue_of_unlimited {m : Machine} (h : m.out.limit = none) (v : Value) :
    printValue v m =
      .ok .normal { m with out := m.out.append (m.store.text v ++ "\n").toUTF8 } :=
  printValue_of_ok (Sink.write_of_unlimited h _)

/-- A line that fits. -/
theorem cutAt_printValue {m : Machine} (hlimit : m.out.limit = none) {v : Value}
    (hfit : m.out.written.size + (m.store.text v ++ "\n").toUTF8.size ≤ n) :
    CutAt n (fun _ => printValue v) m := by
  have hprint := printValue_of_unlimited hlimit v
  refine .fits ?_ ?_
  · rw [hprint]
    show (m.out.written ++ _).size ≤ n
    rw [ByteArray.size_append]
    exact hfit
  · rw [hprint]
    exact printValue_of_ok (m := m.limited n) (Sink.write_limited_of_le hfit)

/-- A run is cut nowhere but at a `print`. -/
theorem cuts_print {ev : Watch → Expr → Eval Value} {ex : Watch → Stmt → Eval Flow} {k fuel : Nat}
    {e : Expr} (hev : Cuts n fun w => ev w e) (heval : ∀ m, ev silent e m = eval fuel e m) :
    Cuts n fun w => watched w (.stmt (.print e)) (execOver (ev w) (ex w) k (.print e)) := by
  have hrule : ∀ w, execOver (ev w) (ex w) k (.print e) = ev w e >>= printValue := fun _ => rfl
  simp only [hrule]
  have hheeds : Heeds fun w => ev w e >>= printValue := hev.heeds.bind fun _ => heeds_const _
  refine ⟨hheeds.watched _, fun m => (hev.onward m).trans (onward_bind onward_printValue),
    fun m hlimit hsize => ?_⟩
  have hlast : ∀ v last, ev silent e m = .ok v last → m.Onward last := fun v last hr => by
    have h := hev.onward m
    rw [hr] at h
    exact h
  by_cases hfills : ∃ v last, ev silent e m = .ok v last ∧ last.out.written.size ≤ n ∧
      n < last.out.written.size + (last.store.text v ++ "\n").toUTF8.size
  · obtain ⟨v, last, hr, hle, hlt⟩ := hfills
    have honward := hlast v last hr
    have hprint := printValue_of_unlimited (honward.limit.trans hlimit) v
    have hrun : ev silent e (m.limited n) = .ok v (last.limited n) := by
      cases hev.cut m hlimit hsize with
      | fits _ h => rw [h, hr]; rfl
      | full _ _ h _ => rw [hr] at h; exact absurd h (Nat.not_lt.mpr hle)
    have hfull := printValue_of_error (m := last.limited n) (Sink.write_limited_of_lt hle hlt)
    have hhere : e.Fills n m last :=
      ⟨v, ⟨finished_ok v last, fuel, (heval m).symm.trans hr⟩, hle, hlt⟩
    refine .full hhere (fun w stop _ hstop => ⟨m, by simp only [Eval.watched, hstop]⟩) ?_ ?_
    · show n < (after ((ev silent e >>= printValue) m)).out.written.size
      rw [bind_of_ok hr, hprint]
      show n < (last.out.written ++ _).size
      rw [ByteArray.size_append]
      exact hlt
    · show (ev silent e >>= printValue) (m.limited n) = .error _
        (m.cutOff last ((after ((ev silent e >>= printValue) m)).out.filled n))
      rw [bind_of_ok hrun, bind_of_ok hr, hprint, ← honward.cutOff]
      exact hfull
  · refine ((hev.cut m hlimit hsize).bind hev.heeds (hev.onward m) onward_printValue
      fun v last hr hle => cutAt_printValue ((hlast v last hr).limit.trans hlimit) ?_).watched _
    exact Nat.le_of_not_lt fun hlt => hfills ⟨v, last, hr, hle, hlt⟩

theorem cuts_whileTrue {c : Watch → Eval Value} {b : Watch → Eval Flow} (hc : Cuts n c)
    (hb : Cuts n b) (k : Nat) : Cuts n fun w => whileTrue (c w) (b w) k := by
  induction k with
  | zero => exact quiet_exhausted.cuts
  | succ k ih =>
    refine hc.bind fun v => ?_
    split
    · refine hb.bind fun flow => ?_
      cases flow with
      | normal => exact ih
      | returned v => exact (quiet_pure _).cuts
    · exact (quiet_pure _).cuts

theorem cuts_watched (n k : Nat) : (∀ e, Cuts n fun w => evalWatched w k e) ∧
    ∀ s, Cuts n fun w => execWatched w k s := by
  induction k with
  | zero => exact ⟨fun _ => quiet_exhausted.cuts, fun _ => quiet_exhausted.cuts⟩
  | succ k ih =>
    have hrules := cuts_congruence n
    have hloop : ∀ c s, Cuts n fun w => whileTrue (evalWatched w k c) (execWatched w k s) k :=
      fun c s => cuts_whileTrue (ih.1 c) (ih.2 s) k
    refine ⟨fun e => (hrules.evalOver (hrules.runAll ih.2) ih.1 e).watched (.expr e), fun s => ?_⟩
    by_cases hprint : ∃ e, s = .print e
    · obtain ⟨e, rfl⟩ := hprint
      exact cuts_print (ih.1 e) fun m => by rw [(watched_eq k).1 e]
    · exact (hrules.execOver ih.1 ih.2 hloop s
        fun e he => absurd ⟨e, he⟩ hprint).watched (.stmt s)

/-! ## Programs -/

/-- Where a watch at one node stops the run with whatever it says, the run comes to the node. -/
theorem visits_of_stops {fuel : Nat} {p : Program} {m now : Machine} {node : Node}
    (h : ∀ (w : Watch) (stop : Stop), w.Within (fun node' m' => node' = node ∧ m' = now) →
      w node now = some stop → ∃ m', runAll (execWatched w fuel) p m = .error stop m') :
    Visits fuel p m node now := by
  classical
  obtain ⟨stop, hstop⟩ := exists_stop_ne (runAll (exec fuel) p m)
  let only : Watch := fun node' m' => if node' = node ∧ m' = now then some stop else none
  have honly : ∀ node' m', only node' m' ≠ none → node' = node ∧ m' = now :=
    fun node' m' hne => Classical.byContradiction fun hnot => hne (if_neg hnot)
  obtain ⟨m', hrun⟩ := h only stop honly (if_pos ⟨rfl, rfl⟩)
  exact ⟨only, honly, fun heq => hstop m' (heq.symm.trans hrun)⟩

theorem flushed_limited {x : Eval Flow} {m m₁ : Machine}
    (h : x m₁ = mapMachine (Machine.limited n) (x m)) :
    flushed x m₁ = mapMachine (Machine.limited n) (flushed x m) := by
  have hflush : ∀ m' : Machine, (m'.limited n).out.flush = m'.out.flush := fun _ => rfl
  unfold flushed
  rw [h]
  cases x m with
  | ok flow m' =>
    simp only [mapMachine, hflush]
    cases m'.out.flush <;> rfl
  | error stop m' =>
    cases stop with
    | exhausted => rfl
    | fault d =>
      simp only [mapMachine, hflush]
      cases m'.out.flush <;> rfl

theorem flushed_of_fault {x : Eval Flow} {m m' : Machine} {d : Diagnostic}
    (h : x m = .error (.fault d) m') (hflush : m'.out.flush = .ok ()) :
    flushed x m = .error (.fault d) m' := by
  unfold flushed
  rw [h]
  simp only [hflush]

/-- A sink that takes `n` bytes cuts the output and nothing else. It has the first `n` bytes of
what is written without a limit. If that is all, the run ends as it does without a limit, in the
same state. Otherwise it ends with the sink's fault, in the state in which the first `print` that
does not fit had its value, back in the place where the run began. -/
theorem interpret_cut_by_full_sink (fuel n : Nat) (program : Program) (m : Machine) :
    let whole := interpret fuel program { m with out := .unlimited }
    let cut := interpret fuel program { m with out := ⟨.empty, some n, false⟩ }
    let text := (after whole).out.written
    (after cut).out.written = text.extract 0 (min n text.size) ∧
    (text.size ≤ n → cut = mapMachine (fun m' => { m' with out := ⟨text, some n, false⟩ }) whole) ∧
    (n < text.size → ∃ e now last,
      Visits fuel program { m with out := .unlimited } (.stmt (.print e)) now ∧
      e.Fills n now last ∧
      cut = .error (.fault (.channel .sinkFull))
        { last with
          scope := m.scope, depth := m.depth, out := ⟨text.extract 0 n, some n, false⟩ }) := by
  intro whole cut text
  have hcuts := (cuts_congruence n).runAll (cuts_watched n fuel).2 program
  have honward := hcuts.onward { m with out := .unlimited }
  have hcut := hcuts.cut { m with out := .unlimited } rfl (Nat.zero_le n)
  have hafter : after whole =
      after (runAll (execWatched silent fuel) program { m with out := .unlimited }) := by
    rw [runAll_silent]
    exact after_flushed _ _
  rw [← hafter] at honward
  have hout : (after whole).out = ⟨text, none, false⟩ := by
    obtain ⟨bytes, hbytes⟩ := honward.out
    rw [show text = (after whole).out.written from rfl, hbytes]
    rfl
  cases hcut with
  | fits hle hrun =>
    rw [← hafter] at hle
    rw [runAll_silent, runAll_silent] at hrun
    have hsame : cut = mapMachine (fun m' => { m' with out := ⟨text, some n, false⟩ }) whole := by
      refine (flushed_limited hrun).trans ?_
      show mapMachine (Machine.limited n) whole = _
      revert hout
      cases whole with
      | ok _ m' =>
        intro hout
        simp only [mapMachine, Machine.limited, show m'.out = _ from hout]
        rfl
      | error _ m' =>
        intro hout
        simp only [mapMachine, Machine.limited, show m'.out = _ from hout]
        rfl
    refine ⟨?_, fun _ => hsame, fun hlt => absurd hlt (Nat.not_lt.mpr hle)⟩
    rw [Nat.min_eq_right hle, ByteArray.extract_zero_size, hsame]
    cases whole <;> rfl
  | @full e now last hfills hstops hlt hrun =>
    rw [← hafter] at hlt hrun
    rw [runAll_silent] at hrun
    have hfull : cut = .error (.fault (.channel .sinkFull)) { last with
        scope := m.scope, depth := m.depth, out := ⟨text.extract 0 n, some n, false⟩ } := by
      rw [hout] at hrun
      exact flushed_of_fault hrun rfl
    refine ⟨?_, fun hle => absurd hlt (Nat.not_lt.mpr hle), fun _ => ?_⟩
    · rw [Nat.min_eq_left (Nat.le_of_lt hlt), hfull]
      rfl
    · exact ⟨e, now, last, visits_of_stops hstops, hfills, hfull⟩

/-- `print "abc"; var x;`, which writes four bytes. -/
def printThenDeclare : Program :=
  [.print (.literal (.string "abc")), .declare (.named "x" 1) none]

def freshMachine : Machine :=
  .start .unlimited fun _ => 0

/-- With two bytes the line is cut and the variable is not declared, with four it is. -/
theorem interpret_cut_by_full_sink_printThenDeclare :
    let whole := interpret 3 printThenDeclare { freshMachine with out := .unlimited }
    let cut n := interpret 3 printThenDeclare { freshMachine with out := ⟨.empty, some n, false⟩ }
    let text := (after whole).out.written
    (2 < text.size ∧ text.size ≤ 4) ∧
    (∃ e now last,
      Visits 3 printThenDeclare { freshMachine with out := .unlimited } (.stmt (.print e)) now ∧
      e.Fills 2 now last ∧
      cut 2 = .error (.fault (.channel .sinkFull)) { last with
        scope := 0, depth := 0, out := ⟨text.extract 0 2, some 2, false⟩ }) ∧
    cut 4 = mapMachine (fun m' => { m' with out := ⟨text, some 4, false⟩ }) whole ∧
    (after (cut 2)).store.scopes.binds 0 "x" = false ∧
    (after (cut 4)).store.scopes.binds 0 "x" = true := by
  intro whole cut text
  have hsize : 2 < text.size ∧ text.size ≤ 4 := by decide +kernel
  have hbinds : (after (cut 2)).store.scopes.binds 0 "x" = false ∧
      (after (cut 4)).store.scopes.binds 0 "x" = true := by decide +kernel
  exact ⟨hsize, (interpret_cut_by_full_sink 3 2 printThenDeclare freshMachine).2.2 hsize.1,
    (interpret_cut_by_full_sink 3 4 printThenDeclare freshMachine).2.1 hsize.2, hbinds⟩

end Eval

end Treewalk
