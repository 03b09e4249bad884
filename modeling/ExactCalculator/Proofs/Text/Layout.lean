import ExactCalculator.Proofs.Text.Position
import Mathlib.Data.List.Induction
import Mathlib.Order.Monotone.Basic

/-! Where visible characters stand. A part of an expression is known by how many visible characters
stand before it and how many it has; its range begins where the first of them begins and ends where
the last one ends (`Span.ofVisible`). What stands in such a range and between two of them follows from
the visible characters of the text alone (`Span.ofVisible_tight`, `Span.holds_between`), and the range
of a part inside another one does not depend on the text around that one (`Span.ofVisible_inside`). -/
namespace ExactCalculator
set_option autoImplicit false

/-! ## Offsets -/

/-- Where the visible character begins that stands after the first `n` ones; the end of the text if
there is none. -/
def visibleStart : List Char → Nat → Nat
  | [], _ => 0
  | c :: cs, n =>
    if isIgnored c then c.utf8Size + visibleStart cs n
    else
      match n with
      | 0 => 0
      | n + 1 => c.utf8Size + visibleStart cs n

/-- Where the first `n` visible characters end; the end of the text if there are not so many. -/
def visibleStop : List Char → Nat → Nat
  | _, 0 => 0
  | [], _ + 1 => 0
  | c :: cs, n + 1 => c.utf8Size + visibleStop cs (if isIgnored c then n + 1 else n)

variable {text u v w : List Char} {c : Char} {k m n : Nat}

theorem visibleStart_cons_of_ignored (hc : isIgnored c = true) (cs : List Char) (n : Nat) :
    visibleStart (c :: cs) n = c.utf8Size + visibleStart cs n := by
  cases n <;> simp [visibleStart, hc]

theorem visibleStart_cons_zero (hc : isIgnored c = false) (cs : List Char) :
    visibleStart (c :: cs) 0 = 0 := by
  simp [visibleStart, hc]

theorem visibleStart_cons_succ (hc : isIgnored c = false) (cs : List Char) (n : Nat) :
    visibleStart (c :: cs) (n + 1) = c.utf8Size + visibleStart cs n := by
  simp [visibleStart, hc]

@[simp] theorem visibleStop_zero (text : List Char) : visibleStop text 0 = 0 := by
  cases text <;> rfl

theorem visibleStop_cons_of_ignored (hc : isIgnored c = true) (cs : List Char) (n : Nat) :
    visibleStop (c :: cs) (n + 1) = c.utf8Size + visibleStop cs (n + 1) := by
  rw [visibleStop, if_pos hc]

theorem visibleStop_cons_succ (hc : isIgnored c = false) (cs : List Char) (n : Nat) :
    visibleStop (c :: cs) (n + 1) = c.utf8Size + visibleStop cs n := by
  rw [visibleStop, if_neg (by simp [hc])]

/-! ## Order -/

theorem visibleStart_mono (text : List Char) : Monotone (visibleStart text) := by
  induction text with
  | nil => exact fun _ _ _ => le_refl 0
  | cons c cs ih =>
    intro n m hnm
    cases hc : isIgnored c with
    | true =>
      have hrest := ih hnm
      rw [visibleStart_cons_of_ignored hc, visibleStart_cons_of_ignored hc]
      omega
    | false =>
      cases n with
      | zero =>
        rw [visibleStart_cons_zero hc]
        exact Nat.zero_le _
      | succ n =>
        obtain ⟨m, rfl⟩ := Nat.exists_eq_add_of_lt hnm
        have hrest := ih (Nat.le_add_right n m)
        rw [visibleStart_cons_succ hc, visibleStart_cons_succ hc]
        omega

/-- No visible character begins before those in front of it end. -/
theorem visibleStop_le_visibleStart (text : List Char) (h : n ≤ m) :
    visibleStop text n ≤ visibleStart text m := by
  induction text generalizing n m with
  | nil => cases n <;> exact le_refl 0
  | cons c cs ih =>
    cases n with
    | zero => exact Nat.zero_le _
    | succ n =>
      obtain ⟨m, rfl⟩ := Nat.exists_eq_add_of_lt h
      cases hc : isIgnored c with
      | true =>
        have hrest := ih h
        rw [visibleStop_cons_of_ignored hc, visibleStart_cons_of_ignored hc]
        omega
      | false =>
        have hrest := ih (Nat.le_add_right n m)
        rw [visibleStop_cons_succ hc, visibleStart_cons_succ hc]
        omega

/-- A visible character begins before it ends. -/
theorem visibleStart_le_visibleStop (text : List Char) (h : n < m) :
    visibleStart text n ≤ visibleStop text m := by
  induction text generalizing n m with
  | nil => exact Nat.zero_le _
  | cons c cs ih =>
    obtain ⟨m, rfl⟩ := Nat.exists_eq_add_of_lt h
    cases hc : isIgnored c with
    | true =>
      have hrest := ih h
      rw [visibleStop_cons_of_ignored hc, visibleStart_cons_of_ignored hc]
      omega
    | false =>
      cases n with
      | zero =>
        rw [visibleStart_cons_zero hc]
        exact Nat.zero_le _
      | succ n =>
        have hrest := ih (Nat.lt_of_succ_lt_succ h)
        rw [visibleStop_cons_succ hc, visibleStart_cons_succ hc]
        omega

theorem visibleStop_mono (text : List Char) : Monotone (visibleStop text) := by
  intro n m h
  rcases Nat.eq_or_lt_of_le h with rfl | hlt
  · exact le_refl _
  · exact (visibleStop_le_visibleStart text (le_refl n)).trans (visibleStart_le_visibleStop text hlt)

/-! ## Parts of a text -/

/-- The visible characters of a first part of the text need not be counted one by one. -/
theorem visibleStart_append (u v : List Char) (n : Nat) :
    visibleStart (u ++ v) ((visible u).length + n) = byteLength u + visibleStart v n := by
  induction u with
  | nil => simp
  | cons c cs ih =>
    cases hc : isIgnored c with
    | true =>
      rw [visible_cons_of_ignored cs hc, List.cons_append, visibleStart_cons_of_ignored hc, ih,
        byteLength_cons, Nat.add_assoc]
    | false =>
      rw [visible_cons_of_visible cs hc, List.length_cons, Nat.add_right_comm, List.cons_append,
        visibleStart_cons_succ hc, ih, byteLength_cons, Nat.add_assoc]

theorem visibleStop_append (u v : List Char) (n : Nat) :
    visibleStop (u ++ v) ((visible u).length + (n + 1)) = byteLength u + visibleStop v (n + 1) := by
  induction u with
  | nil => simp
  | cons c cs ih =>
    cases hc : isIgnored c with
    | true =>
      rw [visible_cons_of_ignored cs hc, List.cons_append, ← Nat.add_assoc,
        visibleStop_cons_of_ignored hc, Nat.add_assoc, ih, byteLength_cons, Nat.add_assoc]
    | false =>
      rw [visible_cons_of_visible cs hc, List.length_cons, Nat.add_right_comm, List.cons_append,
        visibleStop_cons_succ hc, ih, byteLength_cons, Nat.add_assoc]

theorem visibleStart_append_left (v : List Char) (hn : n < (visible u).length) :
    visibleStart (u ++ v) n = visibleStart u n := by
  induction u generalizing n with
  | nil => cases hn
  | cons c cs ih =>
    cases hc : isIgnored c with
    | true =>
      rw [visible_cons_of_ignored cs hc] at hn
      rw [List.cons_append, visibleStart_cons_of_ignored hc, visibleStart_cons_of_ignored hc, ih hn]
    | false =>
      rw [visible_cons_of_visible cs hc, List.length_cons] at hn
      cases n with
      | zero => rw [List.cons_append, visibleStart_cons_zero hc, visibleStart_cons_zero hc]
      | succ n =>
        rw [List.cons_append, visibleStart_cons_succ hc, visibleStart_cons_succ hc,
          ih (Nat.lt_of_succ_lt_succ hn)]

theorem visibleStop_append_left (v : List Char) (hn : n ≤ (visible u).length) :
    visibleStop (u ++ v) n = visibleStop u n := by
  induction u generalizing n with
  | nil =>
    obtain rfl := Nat.le_zero.1 hn
    simp
  | cons c cs ih =>
    cases n with
    | zero => simp
    | succ n =>
      cases hc : isIgnored c with
      | true =>
        rw [visible_cons_of_ignored cs hc] at hn
        rw [List.cons_append, visibleStop_cons_of_ignored hc, visibleStop_cons_of_ignored hc, ih hn]
      | false =>
        rw [visible_cons_of_visible cs hc, List.length_cons] at hn
        rw [List.cons_append, visibleStop_cons_succ hc, visibleStop_cons_succ hc,
          ih (Nat.le_of_succ_le_succ hn)]

theorem visibleStop_le_byteLength (text : List Char) (n : Nat) :
    visibleStop text n ≤ byteLength text := by
  induction text generalizing n with
  | nil => cases n <;> exact le_refl 0
  | cons c cs ih =>
    cases n with
    | zero => exact Nat.zero_le _
    | succ n =>
      rw [visibleStop, byteLength_cons]
      exact Nat.add_le_add_left (ih _) _

theorem HeadVisible.visibleStart_eq (h : HeadVisible v) : visibleStart v 0 = 0 := by
  cases v with
  | nil => rfl
  | cons c cs => exact visibleStart_cons_zero (h c rfl) cs

theorem BeginsAt.start_eq {start : Nat} {before : List Char} (h : BeginsAt text start before) :
    start = visibleStart text before.length := by
  obtain ⟨u, v, rfl, rfl, rfl, hv⟩ := h
  have happend := visibleStart_append u v 0
  rw [hv.visibleStart_eq] at happend
  exact happend.symm

theorem EndsAt.mark_eq {mark : Nat} (h : EndsAt w mark) :
    mark = visibleStop w (visible w).length := by
  obtain ⟨u, v, rfl, rfl, hv, hlast⟩ := h
  rw [visible_append, hv, List.append_nil, visibleStop_append_left v (le_refl _)]
  rcases List.eq_nil_or_concat u with rfl | ⟨u, c, rfl⟩
  · rfl
  · rw [List.concat_eq_append] at hlast ⊢
    have hc : isIgnored c = false := hlast c (by simp)
    have happend := visibleStop_append u [c] 0
    rw [visible_append, visible_cons_of_visible [] hc, visible_nil, List.length_append,
      List.length_singleton, happend, visibleStop_cons_succ hc, visibleStop_zero, byteLength_append]
    simp

/-! ## Places between visible characters -/

/-- Before the offset `p` of the text stand the visible characters `before`. -/
def StandsAfter (text before : List Char) (p : Nat) : Prop :=
  ∃ u v, text = u ++ v ∧ byteLength u = p ∧ visible u = before

theorem exists_endsAt (w : List Char) : ∃ mark, EndsAt w mark := by
  induction w using List.reverseRecOn with
  | nil => exact ⟨0, .nil⟩
  | append_singleton w c ih =>
    obtain ⟨mark, hmark⟩ := ih
    cases hc : isIgnored c with
    | true => exact ⟨mark, hmark.skip hc⟩
    | false => exact ⟨_, .take hc⟩

section
variable {before body after : List Char} {p q : Nat}

theorem exists_split_of_visible (h : visible text = before ++ after) :
    ∃ u v, text = u ++ v ∧ visible u = before ∧ visible v = after := by
  obtain ⟨u, v, htext, hu, hv⟩ := List.filter_eq_append_iff.1 h
  exact ⟨u, v, htext, hu, hv⟩

theorem beginsAt_visibleStart (h : visible text = before ++ after) :
    BeginsAt text (visibleStart text before.length) before := by
  obtain ⟨u, v, rfl, rfl, -⟩ := exists_split_of_visible h
  obtain ⟨z, v, rfl, hz, hhead⟩ := exists_skip v
  have hu : visible (u ++ z) = visible u := by rw [visible_append, hz, List.append_nil]
  have hbegin : BeginsAt (u ++ z ++ v) (byteLength (u ++ z)) (visible u) := .of_split hu hhead
  rw [List.append_assoc] at hbegin
  rwa [← hbegin.start_eq]

theorem exists_split_visibleStop (h : visible text = before ++ after) :
    ∃ u v, text = u ++ v ∧ byteLength u = visibleStop text before.length ∧ visible u = before ∧
      EndsAt u (byteLength u) := by
  obtain ⟨w, v, rfl, rfl, -⟩ := exists_split_of_visible h
  obtain ⟨mark, hmark⟩ := exists_endsAt w
  have hstop := hmark.mark_eq
  obtain ⟨u, z, rfl, rfl, hz, hlast⟩ := hmark
  refine ⟨u, z ++ v, List.append_assoc u z v, ?_, ?_, u, [], by simp, rfl, rfl, hlast⟩
  · rw [hstop, visibleStop_append_left v (le_refl _)]
  · rw [visible_append, hz, List.append_nil]

theorem visibleStart_standsAfter (h : visible text = before ++ after) :
    StandsAfter text before (visibleStart text before.length) := by
  obtain ⟨u, v, htext, hu, hbefore, -⟩ := beginsAt_visibleStart h
  exact ⟨u, v, htext, hu, hbefore⟩

theorem visibleStop_standsAfter (h : visible text = before ++ after) :
    StandsAfter text before (visibleStop text before.length) := by
  obtain ⟨u, v, htext, hu, hbefore, -⟩ := exists_split_visibleStop h
  exact ⟨u, v, htext, hu, hbefore⟩

/-! ## Ranges -/

namespace Span

/-- The range of the `n` visible characters that stand after the first `k` ones. -/
def ofVisible (text : List Char) (k n : Nat) : Span :=
  ⟨visibleStart text k, max (visibleStart text k) (visibleStop text (k + n))⟩

/-- The visible characters in the range are the given ones. -/
def Holds (span : Span) (text body : List Char) : Prop :=
  ∃ u b z, text = u ++ b ++ z ∧ span = ⟨byteLength u, byteLength (u ++ b)⟩ ∧ visible b = body

/-- The range is not empty, and it begins and ends with visible characters. -/
def Tight (span : Span) (text : List Char) : Prop :=
  ∃ u b z, text = u ++ b ++ z ∧ span = ⟨byteLength u, byteLength (u ++ b)⟩ ∧ b ≠ [] ∧
    HeadVisible b ∧ ∀ c, b.getLast? = some c → isIgnored c = false

/-- Between two places of a text stand the visible characters that the second one has before it and
the first one has not. -/
theorem holds_between (hp : StandsAfter text before p) (hq : StandsAfter text (before ++ body) q)
    (hle : p ≤ q) : Holds ⟨p, q⟩ text body := by
  obtain ⟨u, v, htext, rfl, rfl⟩ := hp
  obtain ⟨u', v', htext', rfl, hbody⟩ := hq
  obtain ⟨b, rfl, -⟩ := exists_append_of_byteLength_le (htext.symm.trans htext') hle
  refine ⟨u, b, v', htext', rfl, ?_⟩
  rw [visible_append] at hbody
  exact List.append_cancel_left hbody

theorem Holds.start_le_stop {span : Span} (h : span.Holds text body) : span.start ≤ span.stop := by
  obtain ⟨u, b, z, -, rfl, -⟩ := h
  rw [byteLength_append]
  exact Nat.le_add_right _ _

theorem ofVisible_stop (text : List Char) (k : Nat) (hn : n ≠ 0) :
    (ofVisible text k n).stop = visibleStop text (k + n) :=
  max_eq_right (visibleStart_le_visibleStop text (by omega))

theorem ofVisible_add (text : List Char) (k m : Nat) (hn : n ≠ 0) :
    ofVisible text k (m + n) = ⟨visibleStart text k, (ofVisible text (k + m) n).stop⟩ := by
  have hstop := ofVisible_stop text k (n := m + n) (by omega)
  rw [← Nat.add_assoc, ← ofVisible_stop text (k + m) hn] at hstop
  rw [← hstop]
  rfl

theorem holds_head (h : visible text = before ++ body ++ after) :
    Holds ⟨visibleStart text before.length, visibleStart text (before.length + body.length)⟩ text
      body := by
  have hright := visibleStart_standsAfter h
  rw [List.append_assoc] at h
  rw [← List.length_append]
  exact holds_between (visibleStart_standsAfter h) hright (visibleStart_mono text (by simp))

variable {gap : List Char}

theorem ofVisible_standsAfter (h : visible text = before ++ body ++ after) (hbody : body ≠ []) :
    StandsAfter text (before ++ body) (ofVisible text before.length body.length).stop := by
  rw [ofVisible_stop text _ (List.length_pos_of_ne_nil hbody).ne', ← List.length_append]
  exact visibleStop_standsAfter h

/-- What stands between a part and another one after it. -/
theorem holds_gap (h : visible text = before ++ body ++ (gap ++ after)) (hbody : body ≠ []) :
    Holds ⟨(ofVisible text before.length body.length).stop,
      visibleStart text (before.length + (body ++ gap).length)⟩ text gap := by
  have hleft := ofVisible_standsAfter h hbody
  rw [← List.append_assoc] at h
  rw [← List.length_append, ← List.append_assoc]
  refine holds_between hleft (visibleStart_standsAfter h) ?_
  rw [ofVisible_stop text _ (List.length_pos_of_ne_nil hbody).ne']
  exact visibleStop_le_visibleStart text (by simp)

theorem holds_tail (h : visible text = before ++ body ++ (gap ++ after)) (hbody : body ≠ []) :
    Holds ⟨(ofVisible text before.length body.length).stop,
      visibleStop text (before.length + (body ++ gap).length)⟩ text gap := by
  have hleft := ofVisible_standsAfter h hbody
  rw [← List.append_assoc] at h
  rw [← List.length_append, ← List.append_assoc]
  refine holds_between hleft (visibleStop_standsAfter h) ?_
  rw [ofVisible_stop text _ (List.length_pos_of_ne_nil hbody).ne']
  exact visibleStop_mono text (by simp)

/-- The part of a text that the visible characters `body` take up. -/
theorem exists_part_ofVisible (h : visible text = before ++ body ++ after) (hbody : body ≠ []) :
    ∃ u b z, text = u ++ b ++ z ∧
      ofVisible text before.length body.length = ⟨byteLength u, byteLength (u ++ b)⟩ ∧
      visible u = before ∧ visible b = body ∧ HeadVisible b ∧
      ∀ c, b.getLast? = some c → isIgnored c = false := by
  obtain ⟨w, rest, htext, hw, hvisible, hend⟩ := exists_split_visibleStop h
  rw [List.append_assoc] at h
  have hbegin := beginsAt_visibleStart h
  rw [htext] at hbegin
  obtain ⟨u, b, z, hub, hu, hb, hbefore, hbbody, -, hhead, hlast⟩ :=
    exists_part hbegin hend hvisible hbody
  refine ⟨u, b, z ++ rest, by rw [htext, hub, List.append_assoc], ?_, hbefore, hbbody, hhead, hlast⟩
  have hstop := ofVisible_stop text before.length (List.length_pos_of_ne_nil hbody).ne'
  rw [← List.length_append, ← hw, ← hb] at hstop
  have hstart : (ofVisible text before.length body.length).start = byteLength u := by
    rw [hu, ← htext]
    rfl
  exact congrArg₂ mk hstart hstop

theorem ofVisible_tight (h : visible text = before ++ body ++ after) (hbody : body ≠ []) :
    (ofVisible text before.length body.length).Tight text := by
  obtain ⟨u, b, z, htext, hspan, -, hb, hhead, hlast⟩ := exists_part_ofVisible h hbody
  refine ⟨u, b, z, htext, hspan, ?_, hhead, hlast⟩
  rintro rfl
  exact hbody hb.symm

theorem ofVisible_holds (h : visible text = before ++ body ++ after) (hbody : body ≠ []) :
    (ofVisible text before.length body.length).Holds text body := by
  obtain ⟨u, b, z, htext, hspan, -, hb, -⟩ := exists_part_ofVisible h hbody
  exact ⟨u, b, z, htext, hspan, hb⟩

/-- The range from the beginning of a part to the end of what is read so far. -/
theorem eq_ofVisible {rest : List Char} {start mark : Nat} (hbegin : BeginsAt text start before)
    (hend : EndsAt w mark) (htext : text = w ++ rest) (hw : visible w = before ++ body) :
    (⟨start, max start mark⟩ : Span) = ofVisible text before.length body.length := by
  have hlen : (visible w).length = before.length + body.length := by rw [hw, List.length_append]
  rw [ofVisible, hbegin.start_eq, hend.mark_eq, ← hlen, htext, visibleStop_append_left rest (le_refl _)]

end Span

end

theorem Span.ofVisible_stop_le (rest : List Char) (hn : n ≠ 0) (hk : k + n ≤ (visible w).length) :
    (ofVisible (w ++ rest) k n).stop ≤ byteLength w := by
  rw [ofVisible_stop (w ++ rest) k hn, visibleStop_append_left rest hk]
  exact visibleStop_le_byteLength w (k + n)

/-- The range of a part inside the part `v` of a text is the range that it has in `v` alone, moved. -/
theorem Span.ofVisible_inside (u z : List Char) (hn : n ≠ 0) (hk : k + n ≤ (visible v).length) :
    ofVisible (u ++ v ++ z) ((visible u).length + k) n =
      ⟨byteLength u + (ofVisible v k n).start, byteLength u + (ofVisible v k n).stop⟩ := by
  obtain ⟨n, rfl⟩ := Nat.exists_eq_add_one_of_ne_zero hn
  have hstart : visibleStart (u ++ v ++ z) ((visible u).length + k) =
      byteLength u + visibleStart v k := by
    rw [List.append_assoc, visibleStart_append, visibleStart_append_left z (by omega)]
  have hstop : visibleStop (u ++ v ++ z) ((visible u).length + k + (n + 1)) =
      byteLength u + visibleStop v (k + (n + 1)) := by
    rw [List.append_assoc, Nat.add_assoc, ← Nat.add_assoc k, visibleStop_append,
      visibleStop_append_left z (by omega)]
  rw [ofVisible, hstart, hstop, ofVisible, Nat.add_max_add_left]

end ExactCalculator
