import OssecHids.OsCrypto.Payload
import OssecHids.OsCrypto.RoundTrip
import OssecHids.OsCrypto.Lookups
import OssecHids.Analysisd.Ordering
import OssecHids.Analysisd.LastEvents
import OssecHids.Analysisd.Selection
import OssecHids.Analysisd.Overwrite
import OssecHids.Analysisd.Rollover
import OssecHids.Remoted.Manager
import OssecHids.Remoted.ArForward
import OssecHids.Shared.AlertRecords
import OssecHids.Shared.AlertRoundTrip
import OssecHids.Syscheckd.Detection
import OssecHids.Syscheckd.Realtime
import OssecHids.Shared.ThreadPool
import OssecHids.Analysisd.FtsRestart
import OssecHids.Analysisd.Ignore
import OssecHids.Analysisd.Accumulator
import OssecHids.OsRegex.Match
import OssecHids.OsRegex.Convert
import OssecHids.OsXml.Access
import OssecHids.OsXml.Variables
import OssecHids.Shared.ListNodes
import OssecHids.Shared.QueueOp
import OssecHids.Analysisd.ListSearch
import OssecHids.Analysisd.AllowList
import OssecHids.Analysisd.EventList
import OssecHids.OsExecd.ReadExecConfig
import OssecHids.OsExecd.Arguments
import OssecHids.Remoted.SharedFiles
import OssecHids.Remoted.LineContent
import OssecHids.Analysisd.Stats
import OssecHids.Analysisd.CleanLaw
import OssecHids.OsMaild.MailFlow
import OssecHids.Rootcheck.Extract
import OssecHids.Rootcheck.CheckFile
import OssecHids.Rootcheck.Database
import OssecHids.OsCsyslogd.JsonTail
import OssecHids.ClientAgent.SharedFile
import OssecHids.Logcollector.ReadSyslog
import OssecHids.Logcollector.ReadMultiline
import OssecHids.Logcollector.ModsecLog
import OssecHids.Logcollector.ReadAudit
import OssecHids.Syscheckd.Seechanges
import OssecHids.OsAuth.Enrollment
import OssecHids.OsAuth.CheckCert
import OssecHids.Analysisd.ForwardedAlert
import OssecHids.OsRegex.StrBreak
import OssecHids.OsRegex.WordMatch
import OssecHids.Shared.WinAclReport
import OssecHids.Shared.TimeGrammar
import OssecHids.Shared.WeekDays
import OssecHids.Shared.StoreSort
import OssecHids.Analysisd.CustomLog
import OssecHids.OsCsyslogd.CefReader
import OssecHids.OsRegex.StrHowClosed
import OssecHids.OsExecd.ShellEscape
import OssecHids.OsMaild.EscapeDots
import OssecHids.Analysisd.JsonGroups
import OssecHids.Syscheckd.Overflow
import OssecHids.AddAgent.KeyTransfer
import OssecHids.OsCrypto.Channel
import OssecHids.Remoted.EventPath
