import Osrd.RangeMap.Common
import Osrd.RangeMap.RangeSet
import Osrd.RangeMap.FindSegment
import Osrd.Path.Backtracks
import Osrd.Path.SubObjects
import Osrd.Path.BlockRecovery
import Osrd.Conflicts.FirstConflict
import Osrd.Conflicts.Detector
import Osrd.Conflicts.SpacingUpdates
import Osrd.Stdcm.Delays
import Osrd.Stdcm.TimeAccounting
import Osrd.Stdcm.GridMargins
import Osrd.Stdcm.StepProgress
import Osrd.Stdcm.DelayManager
import Osrd.Stdcm.VisitedNodes
import Osrd.EnvelopeSim.MinimumProfile
import Osrd.Search.Bindings
import Osrd.Search.Progress
import Osrd.Search.TypeRelations
import Osrd.Infra.Sharing
import Osrd.Infra.SplitTrackSection
import Osrd.InfraErrors.NoPanic
import Osrd.InfraErrors.FixedParts
import Osrd.InfraErrors.RouteTracks
import Osrd.Projection.Curves
import Osrd.Projection.ProjectedCurves
import Osrd.Projection.SharedPositions
import Osrd.Projection.WorkSchedules
import Osrd.Timetable.OccupancyBlocks
import Osrd.Timetable.FrontOccurrences
import Osrd.SimilarTrains.Response
import Osrd.SimilarTrains.SkippedWaypoints
import Osrd.SimilarTrains.TrafficPath
import Osrd.SimilarTrains.StoredTraffic
import Osrd.Osrdyne.ScheduleRuns
import Osrd.Osrdyne.Activity
import Osrd.Osrdyne.ControllerRuns
import Osrd.Osrdyne.TrackerCalls
import Osrd.IntervalsDataViz.ViewBox
import Osrd.PowerRestrictions.Compatibility
