import Abacus.Proofs.Conduct.Plain

/-! The records of a run. Whatever is nested in a script, at any depth, records prints and the
values of lines only; all other records are about statements of the script itself, one about each at
most and in their order. -/

namespace Abacus

open Conduct Run

variable {α : Type}

/-- What tells which statement a record is about. -/
def Statement.mark (s : Statement) : Statement.Kind × String :=
  (s.kind, s.source)

/-- The marks of the records that only statements of the script itself make. -/
def outerMarks (records : List (Record α)) : List (Statement.Kind × String) :=
  (records.filter (fun r => r.kind ≠ .print ∧ r.kind ≠ .inline)).map (fun r => (r.kind, r.source))

/-- From `m` to `m'` records were added. Those that are made by the statements of the script itself
are about the statements `reported`, one about each at most and in their order; values of lines are
among them only with `report`. -/
def Reports (report : Bool) (reported : List Statement) (m m' : Machine α) : Prop :=
  ∃ new, m'.records.toList = m.records.toList ++ new ∧
    (outerMarks new).Sublist (reported.map Statement.mark) ∧
    (report = false → ∀ r ∈ new, r.kind ≠ .inline)

namespace Reports

variable {report report' : Bool} {reported reported' : List Statement} {m m' m'' : Machine α}

theorem ofSame (h : m'.records = m.records) : Reports report reported m m' :=
  ⟨[], by simp [h], List.nil_sublist _, by simp⟩

theorem mono (h : Reports report reported m m') (hr : report = true → report' = true)
    (hs : reported.Sublist reported') : Reports report' reported' m m' := by
  obtain ⟨new, hm, hmarks, hinline⟩ := h
  refine ⟨new, hm, hmarks.trans (hs.map _), fun hf => hinline ?_⟩
  cases report with
  | false => rfl
  | true => exact (hr rfl).symm.trans hf

theorem trans (h : Reports report reported m m') (h' : Reports report reported' m' m'') :
    Reports report (reported ++ reported') m m'' := by
  obtain ⟨new, hm, hmarks, hinline⟩ := h
  obtain ⟨new', hm', hmarks', hinline'⟩ := h'
  refine ⟨new ++ new', by rw [hm', hm, List.append_assoc], ?_, fun hr r hmem => ?_⟩
  · simpa [outerMarks] using hmarks.append hmarks'
  · rcases List.mem_append.mp hmem with hmem | hmem
    · exact hinline hr r hmem
    · exact hinline' hr r hmem

theorem record {s : Statement} {output : List (Output α)}
    (hm : m'.records = m.records.push ⟨s.kind, s.source, output⟩)
    (hs : s.kind ≠ .print ∧ s.kind ≠ .inline → s ∈ reported)
    (hr : report = false → s.kind ≠ .inline) : Reports report reported m m' := by
  refine ⟨[⟨s.kind, s.source, output⟩], by simp [hm], ?_, fun hf r hmem => ?_⟩
  · by_cases hk : s.kind ≠ .print ∧ s.kind ≠ .inline
    · have hmark : s.mark ∈ reported.map Statement.mark := List.mem_map_of_mem (hs hk)
      simpa [outerMarks, hk, Statement.mark] using hmark
    · simp [outerMarks, hk]
  · rw [List.mem_singleton.mp hmem]
    exact hr hf

theorem congr (h : Reports report reported m m') {n : Machine α} (hn : n.records = m.records)
    {n' : Machine α} (hn' : n'.records = m'.records) : Reports report reported n n' := by
  rw [Reports, hn, hn']
  exact h

theorem prints (h : Reports false [] m m') :
    ∃ new, m'.records.toList = m.records.toList ++ new ∧ ∀ r ∈ new, r.kind = .print := by
  obtain ⟨new, hm, hmarks, hinline⟩ := h
  refine ⟨new, hm, fun r hr => ?_⟩
  have hnone : new.filter (fun r => r.kind ≠ .print ∧ r.kind ≠ .inline) = [] := by
    simpa [outerMarks] using hmarks
  by_contra hk
  exact List.filter_eq_nil_iff.mp hnone r hr (by simp [hk, hinline rfl r hr])

end Reports

/-- Records are made by the statements that are reported. -/
def Moves.reports : Moves α where
  rel a := Reports a.report a.reported
  same _ hr := .ofSame hr
  trans hsum h h' := (h.mono hsum.report (.refl _)).trans (h'.mono hsum.report' (.refl _)) |>.mono id
    hsum.reported
  record _ hm hs hr := .record hm hs hr
  opened _ hr h := h.congr hr.symm rfl
  placed h _ hr := h.congr rfl hr

/-- Anything may be bound and remembered, and a run may stop in any way. -/
def Conduct.recording (setup : Setup α) : Conduct setup :=
  .plain (fun _ => True) (fun _ _ => True) .reports (.all setup)

/-- An expression adds nothing to the records but prints, whatever it calls and whichever blocks are
in it. The statements of a script add prints, values of lines, and records about statements of the
script itself, one about each at most and in their order. -/
theorem records_disciplined (setup : Setup α) (fuel : Nat) (m : Machine α) :
    (∀ calls scope tokens offset, ∃ new,
      (stateOf (Eval.expression setup fuel calls scope tokens offset m)).records.toList =
        m.records.toList ++ new ∧ ∀ r ∈ new, r.kind = .print) ∧
    ∀ body : List Statement, ∃ new,
      (stateOf (Eval.program setup fuel body m)).records.toList = m.records.toList ++ new ∧
        ((new.filter (fun r => r.kind ≠ .print ∧ r.kind ≠ .inline)).map
          (fun r => (r.kind, r.source))).Sublist (body.map (fun s => (s.kind, s.source))) := by
  let plan : Plan (Conduct.recording setup) :=
    .free (fun _ => trivial) (fun _ _ => trivial) (fun _ => trivial)
  have hm : m.memory.Allowed (fun _ => True) (fun _ _ => True) :=
    .of_all (fun _ => trivial) (fun _ _ => trivial) m.memory
  refine ⟨fun calls scope tokens offset => ?_, fun body => ?_⟩
  · have hquiet := (plan.partsObey fuel).expression () calls scope tokens offset trivial trivial
      (fun _ _ => trivial)
    have hadded : Reports false [] m _ := (hquiet () m trivial hm).1
    exact hadded.prints
  · have hfit : plan.fitBlock fuel body := trivial
    have hbody := plan.program_obeys (w := ()) trivial hfit
    obtain ⟨new, hnew, hmarks, _⟩ : Reports true body m _ := (hbody () m trivial hm).1
    exact ⟨new, hnew, hmarks⟩

end Abacus
