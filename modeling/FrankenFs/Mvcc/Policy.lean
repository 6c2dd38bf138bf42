import FrankenFs.Mvcc.Types

/-!
# The adaptive conflict policy

Written over the platform's `f64`, with the roundings where the source has them.
-/

namespace FrankenFs.Mvcc

variable [Platform]

open Platform

structure AdaptivePolicyConfig where
  corruptionSeverity : F64
  abortCost : F64
  baseCorruptionProbability : F64
  emaAlpha : F64
  warmupCommits : Nat
  hysteresisRatio : F64

structure ContentionMetrics where
  conflictRate : F64
  mergeSuccessRate : F64
  abortRate : F64
  totalCommits : Nat
  totalConflicts : Nat
  totalMerges : Nat
  totalAborts : Nat
  lastSelected : Option ConflictPolicy

namespace ContentionMetrics

def sample (b : Bool) : F64 := if b then one else zero

def ema (alpha rate : F64) (b : Bool) : F64 := mulAdd (sub one alpha) rate (mul (sample b) alpha)

def recordCommit (m : ContentionMetrics) (alpha : F64) (hadConflict mergeSucceeded aborted : Bool) :
    ContentionMetrics :=
  { m with
    totalCommits := u64SaturatingAdd m.totalCommits 1
    conflictRate := ema alpha m.conflictRate hadConflict
    totalConflicts := if hadConflict then u64SaturatingAdd m.totalConflicts 1 else m.totalConflicts
    mergeSuccessRate :=
      if hadConflict then ema alpha m.mergeSuccessRate mergeSucceeded else m.mergeSuccessRate
    totalMerges :=
      if hadConflict && mergeSucceeded then u64SaturatingAdd m.totalMerges 1 else m.totalMerges
    totalAborts := if aborted then u64SaturatingAdd m.totalAborts 1 else m.totalAborts
    abortRate := ema alpha m.abortRate aborted }

def expectedLossStrict (m : ContentionMetrics) (config : AdaptivePolicyConfig) : F64 :=
  mul m.conflictRate config.abortCost

def expectedLossSafeMerge (m : ContentionMetrics) (config : AdaptivePolicyConfig) : F64 :=
  let corruptionLoss := mul config.baseCorruptionProbability config.corruptionSeverity
  let residualAbortRate := mul m.conflictRate (sub one m.mergeSuccessRate)
  mulAdd residualAbortRate config.abortCost corruptionLoss

def selectPolicy (m : ContentionMetrics) (config : AdaptivePolicyConfig) : ConflictPolicy :=
  if m.totalCommits < config.warmupCommits then .safeMerge
  else
    let lossStrict := m.expectedLossStrict config
    let lossMerge := m.expectedLossSafeMerge config
    let rawWinner : ConflictPolicy := if le lossStrict lossMerge then .strict else .safeMerge
    match m.lastSelected with
    | some incumbent =>
      if incumbent ≠ rawWinner then
        let (incumbentLoss, challengerLoss) :=
          if incumbent = .strict then (lossStrict, lossMerge) else (lossMerge, lossStrict)
        if lt (mul challengerLoss config.hysteresisRatio) incumbentLoss then rawWinner
        else incumbent
      else rawWinner
    | none => rawWinner

end ContentionMetrics

end FrankenFs.Mvcc
